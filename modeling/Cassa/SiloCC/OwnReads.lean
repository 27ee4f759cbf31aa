import Cassa.SiloCC.SerialSemantics

/-!
# What a transaction reads of its own operations

`read` leaves by `FINISH_READ` when the key is in the read set or in the write set,
and `retrun_value` then still holds what the last READ of another key has put there.
`scan` reports the keys of the local sets first, takes the body of the record for a
key of the read set, and reports a key that the transaction has deleted. The theorem
says for which requests none of this is noticed.
-/

namespace Cassa.SiloCC.Serial

variable {K β : Type} [LinearOrder K] [Inhabited β]

/-- Which of a transaction's operations on one key counts: the last one in program
order, or the first one, which is the one that the write set keeps. -/
inductive Counts where
  | last
  | first
  deriving DecidableEq

/-- The body that an operation gives to the key `k`. -/
def Procedure.bodyOn (k : K) : Procedure K β → Option β
  | .INSERT k' b => if k' = k then some b else none
  | .WRITE k' b => if k' = k then some b else none
  | _ => none

def Counts.own (c : Counts) (before : List (Procedure K β)) (k : K) : Option (Own β) :=
  match c with
  | .last => firstOn before.reverse k
  | .first => firstOn before k

/-- The transaction's own write or insert of a key. -/
def Counts.body (c : Counts) (before : List (Procedure K β)) (k : K) : Option β :=
  match c with
  | .last => before.reverse.findSome? (·.bodyOn k)
  | .first => match firstOn before k with
    | some (.inserted b) => some b
    | some (.written b) => some b
    | _ => none

/-- The value of a READ: the own write or insert, else the committed body. -/
def Counts.readValue (c : Counts) (s : State K β) (before : List (Procedure K β)) (k : K) :
    Option β :=
  (c.body before k).or (s.visible k)

/-- The state that the transaction sees: own inserts and writes included, own deletes
excluded. -/
def Counts.visible (c : Counts) (s : State K β) (before : List (Procedure K β)) (k : K) : Option β :=
  match c.own before k with
  | some (.inserted b) => some b
  | some (.written b) => some b
  | some .deleted => none
  | none => s.visible k

/-- The report of an operation that the transaction makes after `before`. -/
def Told (c : Counts) (s : State K β) (before : List (Procedure K β)) :
    Procedure K β → List (K × β) → Prop
  | .READ k, report => ∃ b, c.readValue s before k = some b ∧ report = [(k, b)]
  | .SCAN l lx r rx, report => Ascending report ∧
      ∀ k b, (k, b) ∈ report ↔ inRange l lx r rx k = true ∧ c.visible s before k = some b
  | _, report => report = []

/-- Every operation that returns OK adds the right report. -/
def ToldRight (c : Counts) (s : State K β) (ps : List (Procedure K β)) : Prop :=
  ∀ before p after t lines t', ps = before ++ p :: after →
    executeAll s.begin before = some (.OK, t, lines) → execute t p = some (.OK, t') →
    ∃ report, t'.read_key_value_pairs = t.read_key_value_pairs ++ report ∧ Told c s before p report

/-- The body that an operation leaves for the key `k` in the local sets: the committed
one for READ and SCAN, the one of the operation for the others. -/
def Procedure.leaves (s : State K β) (k : K) : Procedure K β → Option β
  | .READ k' => if k' = k then s.visible k else none
  | .SCAN l lx r rx => if inRange l lx r rx k then s.visible k else none
  | .INSERT k' b => if k' = k then some b else none
  | .WRITE k' b => if k' = k then some b else none
  | .DELETE k' => if k' = k then some default else none

/-- The body that the first operation on a key has left; `none` for a key that no
operation has touched. -/
def held (s : State K β) (before : List (Procedure K β)) (k : K) : Option β :=
  before.findSome? (·.leaves s k)

/-- The committed body of the last READ of a key that was not touched before, the
`done` operations coming first. -/
def fetchedAfter (s : State K β) (done : List (Procedure K β)) (b : β) :
    List (Procedure K β) → β
  | [] => b
  | .READ k :: ps =>
    fetchedAfter s (done ++ [.READ k]) (if (held s done k).isSome then b else (s.visible k).getD default)
      ps
  | p :: ps => fetchedAfter s (done ++ [p]) b ps

def fetched (s : State K β) (before : List (Procedure K β)) : β := fetchedAfter s [] default before

/-- No operation of the list is refused. -/
def Accepted (s : State K β) (ps : List (Procedure K β)) : Prop :=
  ∀ before p after, ps = before ++ p :: after → ¬ Rejected s before p

/-- A READ is of an untouched key, or the body fetched last is the right one by chance. In
the range of a SCAN the touched keys come before the other visible ones, and each of
them is visible to the transaction with the body that its first operation has left. -/
def Unnoticed (c : Counts) (s : State K β) (before : List (Procedure K β)) : Procedure K β → Prop
  | .READ k => held s before k = none ∨ c.readValue s before k = some (fetched s before)
  | .SCAN l lx r rx =>
    (∀ k b, inRange l lx r rx k = true → held s before k = some b → c.visible s before k = some b) ∧
    ∀ k k', inRange l lx r rx k = true → inRange l lx r rx k' = true → (held s before k).isSome →
      held s before k' = none → (s.visible k').isSome → k < k'
  | _ => True

section

variable {s : State K β}

theorem held_append (before : List (Procedure K β)) (p : Procedure K β) (k : K) :
    held s (before ++ [p]) k = (held s before k).or (p.leaves s k) := by
  simp [held, List.findSome?_append]

theorem fetchedAfter_append (p : Procedure K β) (ps : List (Procedure K β)) :
    ∀ (done : List (Procedure K β)) (b : β),
      fetchedAfter s done b (ps ++ [p]) =
        fetchedAfter s (done ++ ps) (fetchedAfter s done b ps) [p] := by
  induction ps with
  | nil => intro done b; simp [fetchedAfter]
  | cons q ps ih =>
    intro done b
    cases q <;> simp only [List.cons_append, fetchedAfter] <;> rw [ih] <;>
      simp only [List.append_assoc, List.singleton_append]

theorem fetched_append (before : List (Procedure K β)) (p : Procedure K β) :
    fetched s (before ++ [p]) = fetchedAfter s before (fetched s before) [p] := by
  simp [fetched, fetchedAfter_append]

/-- The part of a view that the reads use, said by the list of operations. -/
structure Matches (s : State K β) (before : List (Procedure K β)) (w : View K β) : Prop where
  held : ∀ k, held s before k = if w.touched k then some (w.scanned s k) else none
  fetched : w.fetched = fetched s before

omit [LinearOrder K] [Inhabited β] in
theorem touched_see (w : View K β) (added : K → Bool) (k : K) :
    (w.see added).touched k = (w.touched k || added k) := by
  simp only [View.touched, View.see]
  cases w.seen k <;> cases added k <;> simp

omit [Inhabited β] in
theorem touched_claim (w : View K β) (k : K) (o : Own β) (k' : K) :
    (w.claim k o).touched k' = (w.touched k' || k' == k) := by
  by_cases h : k' = k
  · simp [View.touched, View.claim, h]
  · have hb : (k' == k) = false := by simpa using h
    simp [View.touched, View.claim, h, hb]

/-- WRITE and DELETE do not change what `scan` finds for a key that is seen. -/
theorem scanned_claim {w : View K β} {k k' : K} {o : Own β}
    (hk : w.own k = none) (ho : o.isInserted = false) :
    (w.claim k o).scanned s k' =
      if k' = k ∧ w.touched k = false then o.body else w.scanned s k' := by
  by_cases h : k' = k
  · subst h
    cases hs : w.seen k' with
    | true => cases o <;> simp_all [View.scanned, View.claim, View.touched, Own.isInserted]
    | false => cases o <;> simp_all [View.scanned, View.claim, View.touched, Own.isInserted, Own.body]
  · rw [if_neg (by simp [h]), View.scanned, View.scanned, Follows.own_of_claim_ne w o h]
    rfl

theorem matches_claim {w : View K β} {before : List (Procedure K β)} (hm : Matches s before w) {k : K} {o : Own β} {p : Procedure K β}
    (hk : w.own k = none) (ho : o.isInserted = false)
    (hp : ∀ k', p.leaves s k' = if k' = k then some o.body else none)
    (hfetched : fetched s (before ++ [p]) = fetched s before) :
    Matches s (before ++ [p]) (w.claim k o) := by
  constructor
  · intro k'
    rw [held_append, hm.held, hp, touched_claim, scanned_claim hk ho]
    by_cases h : k' = k
    · subst h
      cases ht : w.touched k' <;> simp
    · have hb : (k' == k) = false := by simpa using h
      cases ht : w.touched k' <;> simp [h, hb]
  · rw [hfetched]
    exact hm.fetched

/-- READ and SCAN of visible keys that the transaction has no operation on. -/
theorem matches_see {w : View K β} {before : List (Procedure K β)} (hm : Matches s before w)
    {added : K → Bool} {p : Procedure K β} {b : β}
    (hadded : ∀ k, w.touched k = false → (added k = true ↔ (p.leaves s k).isSome))
    (hkeep : ∀ k, added k = true → w.own k = none ∨ w.seen k = true)
    (hp : ∀ k b, p.leaves s k = some b → s.visible k = some b)
    (hfetched : fetched s (before ++ [p]) = b) :
    Matches s (before ++ [p]) { w.see added with fetched := b } := by
  constructor
  · intro k
    change _ = if (w.see added).touched k then some ((w.see added).scanned s k) else none
    rw [held_append, hm.held, touched_see]
    cases ht : w.touched k with
    | true =>
      have hscanned : (w.see added).scanned s k = w.scanned s k := by
        cases hk : w.own k with
        | none => simp [View.scanned, View.see, hk]
        | some o =>
          have hsame : (w.seen k || added k) = w.seen k := by
            cases hadd : added k with
            | false => simp
            | true => simp [(hkeep k hadd).resolve_left (by simp [hk])]
          cases o <;> simp [View.scanned, View.see, hk, hsame]
      simp [hscanned]
    | false =>
      obtain ⟨hown, hseen⟩ := Follows.own_none_of_untouched ht
      have hadd := hadded k ht
      cases hl : p.leaves s k with
      | none =>
        have hnot : added k = false := by simpa [hl] using hadd
        simp [hnot]
      | some b' =>
        have hyes : added k = true := by simpa [hl] using hadd
        simp [hyes, View.scanned, View.see, hown, hp k b' hl]
  · exact hfetched.symm

theorem next_matches {t : State K β} {w w' : View K β} {before : List (Procedure K β)}
    {p : Procedure K β} (hf : Follows s w t) (hm : Matches s before w) (hp : w.next s p = some w') :
    Matches s (before ++ [p]) w' := by
  cases p with
  | INSERT k b =>
    simp only [View.next] at hp
    split at hp
    · cases hp
    · rename_i hfree
      rw [← Option.some.inj hp]
      have hnone : w.own k = none := by simp_all
      have htree : s.masstree[k]? = none := by simp_all
      have hseen : w.seen k = false := by
        rw [← Bool.not_eq_true]
        intro hs
        rcases hf.seen_visible k hs with ⟨b', hb⟩ | hvis
        · simp [hnone] at hb
        · simp [visible_of_tree_none htree] at hvis
      constructor
      · intro k'
        rw [held_append, hm.held, touched_see, touched_claim]
        by_cases hk : k' = k
        · subst hk
          simp [View.touched, hseen, hnone, Procedure.leaves, View.scanned, View.see, View.claim]
        · have hb : (k' == k) = false := by simpa using hk
          simp only [Procedure.leaves, Ne.symm hk, hb, if_false, Bool.or_false, Option.or_none]
          simp only [View.scanned, View.see, View.claim, Function.update_of_ne hk, hb, Bool.or_false]
      · rw [fetched_append]
        exact hm.fetched
  | WRITE k b =>
    simp only [View.next] at hp
    split at hp
    · rename_i hown
      rw [← Option.some.inj hp]
      constructor
      · intro k'
        rw [held_append, hm.held]
        by_cases hk : k = k'
        · subst hk
          simp [View.touched, hown]
        · simp [Procedure.leaves, hk]
      · rw [fetched_append]
        exact hm.fetched
    · rename_i hown
      split at hp
      · rw [← Option.some.inj hp]
        refine matches_claim hm (by simpa using hown) rfl ?_ (fetched_append _ _)
        intro k'
        simp [Procedure.leaves, Own.body, eq_comm]
      · cases hp
  | DELETE k =>
    simp only [View.next] at hp
    split at hp
    · rename_i o ho
      split at hp
      · cases hp
      · rw [← Option.some.inj hp]
        constructor
        · intro k'
          rw [held_append, hm.held]
          by_cases hk : k = k'
          · subst hk
            simp [View.touched, ho]
          · simp [Procedure.leaves, hk]
        · rw [fetched_append]
          exact hm.fetched
    · rename_i hnone
      split at hp
      · rw [← Option.some.inj hp]
        refine matches_claim hm hnone rfl ?_ (fetched_append _ _)
        intro k'
        simp [Procedure.leaves, Own.body, eq_comm]
      · cases hp
  | READ k =>
    have hfetched := fetched_append (s := s) before (.READ k)
    simp only [fetchedAfter, hm.held k] at hfetched
    simp only [View.next] at hp
    split at hp
    · rename_i htouched
      rw [← Option.some.inj hp]
      constructor
      · intro k'
        rw [held_append, hm.held]
        by_cases hk : k = k'
        · subst hk
          simp [htouched]
        · simp [Procedure.leaves, hk]
      · rw [hfetched, htouched]
        exact hm.fetched
    · rename_i htouched
      split at hp
      · cases hp
      · rename_i b hvis
        rw [← Option.some.inj hp]
        apply matches_see hm
        · intro k' _
          by_cases hk : k = k'
          · subst hk
            simp [Procedure.leaves, hvis]
          · simp [Procedure.leaves, hk, Ne.symm hk]
        · intro k' hk'
          rw [beq_iff_eq] at hk'
          subst hk'
          rw [Bool.not_eq_true] at htouched
          exact Or.inl (Follows.own_none_of_untouched htouched).1
        · intro k' b' hb'
          simp only [Procedure.leaves] at hb'
          split at hb'
          · exact hb'
          · cases hb'
        · rw [hfetched, if_neg htouched, hvis]
          rfl
  | SCAN l lx r rx =>
    rw [View.next, Option.some.injEq] at hp
    rw [← hp]
    refine matches_see hm ?_ ?_ ?_ ((fetched_append _ _).trans hm.fetched.symm)
    · intro k hk
      obtain ⟨hown, -⟩ := Follows.own_none_of_untouched hk
      cases hr : inRange l lx r rx k <;> simp [Procedure.leaves, hr, hown]
    · intro k hk
      simp only [Bool.and_eq_true, Option.isNone_iff_eq_none] at hk
      exact Or.inl hk.1.2
    · intro k b hb
      simp only [Procedure.leaves] at hb
      split at hb
      · exact hb
      · cases hb

theorem matches_after (hq : Quiescent s) {before : List (Procedure K β)} :
    ∀ {w : View K β}, View.after s before = some w → Matches s before w := by
  induction before using List.reverseRecOn with
  | nil =>
    intro w h
    rw [← Option.some.inj h]
    exact ⟨fun _ => rfl, rfl⟩
  | append_singleton ps p ih =>
    intro w h
    rw [after_append] at h
    obtain ⟨w₀, h₀, hp⟩ := Option.bind_eq_some_iff.mp h
    obtain ⟨t, -, hf⟩ := Follows.executeAll_accepted hq (Follows.begin hq) h₀
    exact next_matches hf (ih h₀) hp

omit [Inhabited β] in
theorem accepted_append (ps : List (Procedure K β)) (p : Procedure K β) :
    Accepted s (ps ++ [p]) ↔ Accepted s ps ∧ ¬ Rejected s ps p := by
  constructor
  · intro h
    refine ⟨?_, h ps p [] rfl⟩
    rintro before q after rfl
    exact h before q (after ++ [p]) (by simp)
  · rintro ⟨hps, hp⟩ before q after heq
    rcases List.eq_nil_or_concat after with rfl | ⟨after', a, rfl⟩
    · obtain ⟨rfl, hpq⟩ := List.append_inj' heq rfl
      obtain rfl : p = q := by simpa using hpq
      exact hp
    · rw [List.concat_eq_append, ← List.cons_append, ← List.append_assoc] at heq
      exact hps before q after' (List.append_inj' heq rfl).1

theorem after_isSome_iff (hq : Quiescent s) {ps : List (Procedure K β)} :
    (View.after s ps).isSome ↔ Accepted s ps := by
  induction ps using List.reverseRecOn with
  | nil =>
    refine ⟨fun _ => ?_, fun _ => rfl⟩
    intro before p after h
    simp at h
  | append_singleton ps p ih =>
    rw [accepted_append, ← ih, after_append]
    cases hw : View.after s ps with
    | none => simp
    | some w =>
      obtain ⟨t, -, hf⟩ := Follows.executeAll_accepted hq (Follows.begin hq) hw
      rw [← next_eq_none_iff hf (after_own hw).1]
      simp [Option.isSome_iff_ne_none]

/-- No operation of the transaction is on a key that it has not touched. -/
theorem ownOn_of_untouched {before : List (Procedure K β)} {k : K} (hk : held s before k = none) :
    ∀ p ∈ before, p.ownOn k = none ∧ p.bodyOn k = none := by
  intro p hp
  have hl : p.leaves s k = none := List.findSome?_eq_none_iff.mp hk p hp
  cases p <;> simp_all [Procedure.leaves, Procedure.ownOn, Procedure.bodyOn]

theorem visible_of_untouched (c : Counts) {before : List (Procedure K β)} {k : K}
    (hk : held s before k = none) :
    c.visible s before k = s.visible k ∧ c.readValue s before k = s.visible k := by
  have hown := ownOn_of_untouched hk
  have hfirst : firstOn before k = none := List.findSome?_eq_none_iff.mpr fun p hp => (hown p hp).1
  have hlast : firstOn before.reverse k = none :=
    List.findSome?_eq_none_iff.mpr fun p hp => (hown p (List.mem_reverse.mp hp)).1
  have hbody : before.reverse.findSome? (·.bodyOn k) = none :=
    List.findSome?_eq_none_iff.mpr fun p hp => (hown p (List.mem_reverse.mp hp)).2
  cases c
  · simp [Counts.visible, Counts.readValue, Counts.own, Counts.body, hlast, hbody]
  · simp [Counts.visible, Counts.readValue, Counts.own, Counts.body, hfirst]

/-- A READ that returns OK. -/
theorem told_read_iff (c : Counts) {before : List (Procedure K β)} {w : View K β}
    (hm : Matches s before w) {k : K} {report : List (K × β)} (hreport : w.Reports s (.READ k) report)
    (hvis : w.touched k = false → (s.visible k).isSome) :
    Told c s before (.READ k) report ↔ Unnoticed c s before (.READ k) := by
  have hheld := hm.held k
  simp only [View.Reports] at hreport
  simp only [Told, Unnoticed, hreport, List.cons.injEq, Prod.mk.injEq, true_and, and_true]
  cases ht : w.touched k with
  | true =>
    rw [ht, if_pos rfl] at hheld
    simp [hheld, hm.fetched]
  | false =>
    rw [ht, if_neg Bool.false_ne_true] at hheld
    obtain ⟨b, hb⟩ := Option.isSome_iff_exists.mp (hvis ht)
    simp [hheld, (visible_of_untouched c hheld).2, hb]

theorem told_scan_iff (c : Counts) {before : List (Procedure K β)} {w : View K β}
    (hm : Matches s before w) {l r : K} {lx rx : Bool} {report : List (K × β)}
    (hreport : w.Reports s (.SCAN l lx r rx) report) :
    Told c s before (.SCAN l lx r rx) report ↔ Unnoticed c s before (.SCAN l lx r rx) := by
  obtain ⟨found, added, rfl, hfound, hadded, hmemf, hmema⟩ := hreport
  have htouched : ∀ k b, held s before k = some b ↔ w.touched k = true ∧ b = w.scanned s k := by
    intro k b
    rw [hm.held k]
    split
    · rename_i h
      simp [h, eq_comm]
    · rename_i h
      simp [h]
  have huntouched : ∀ k, held s before k = none ↔ w.touched k = false := by
    intro k
    rw [hm.held k]
    split
    · rename_i h
      simp [h]
    · rename_i h
      simpa using h
  simp only [Told, Unnoticed]
  constructor
  · rintro ⟨hasc, hmem⟩
    constructor
    · intro k b hrange hb
      have hb' := (htouched k b).mp hb
      exact ((hmem k b).mp (List.mem_append_left _ ((hmemf k b).mpr ⟨hrange, hb'⟩))).2
    · intro k k' hrange hrange' hk hk' hvis
      obtain ⟨b, hb⟩ := Option.isSome_iff_exists.mp hk
      obtain ⟨b', hb'⟩ := Option.isSome_iff_exists.mp hvis
      have h₁ := (hmemf k b).mpr ⟨hrange, (htouched k b).mp hb⟩
      have h₂ := (hmema k' b').mpr ⟨hrange', (huntouched k').mp hk', hb'⟩
      exact (List.pairwise_append.mp hasc).2.2 _ h₁ _ h₂
  · rintro ⟨hvalue, horder⟩
    constructor
    · refine List.pairwise_append.mpr ⟨hfound, hadded, ?_⟩
      rintro ⟨k, b⟩ h₁ ⟨k', b'⟩ h₂
      obtain ⟨hrange, hb⟩ := (hmemf k b).mp h₁
      obtain ⟨hrange', hk', hb'⟩ := (hmema k' b').mp h₂
      exact horder k k' hrange hrange' (by rw [(htouched k b).mpr hb]; rfl)
        ((huntouched k').mpr hk') (by rw [hb']; rfl)
    · intro k b
      rw [List.mem_append, hmemf, hmema]
      constructor
      · rintro (⟨hrange, hb⟩ | ⟨hrange, hk, hb⟩)
        · exact ⟨hrange, hvalue k b hrange ((htouched k b).mpr hb)⟩
        · refine ⟨hrange, ?_⟩
          rw [(visible_of_untouched c ((huntouched k).mpr hk)).1, hb]
      · rintro ⟨hrange, hb⟩
        cases hk : held s before k with
        | some b' =>
          have hb' := hvalue k b' hrange hk
          obtain rfl : b = b' := Option.some.inj (hb.symm.trans hb')
          exact Or.inl ⟨hrange, (htouched k b).mp hk⟩
        | none =>
          rw [(visible_of_untouched c hk).1] at hb
          exact Or.inr ⟨hrange, (huntouched k).mp hk, hb⟩

/-- The report of one operation is right if and only if nothing is noticed. -/
theorem told_iff (hq : Quiescent s) (c : Counts) {before : List (Procedure K β)} {p : Procedure K β}
    {w w' : View K β} (hw : View.after s before = some w) (hp : w.next s p = some w')
    {report : List (K × β)} (hreport : w.Reports s p report) :
    Told c s before p report ↔ Unnoticed c s before p := by
  have hm := matches_after hq hw
  cases p with
  | READ k =>
    apply told_read_iff c hm hreport
    intro ht
    simp only [View.next, ht, Bool.false_eq_true, if_false] at hp
    split at hp
    · cases hp
    · rename_i b hvis
      simp [hvis]
  | SCAN l lx r rx => exact told_scan_iff c hm hreport
  | INSERT k b => exact iff_of_true hreport trivial
  | WRITE k b => exact iff_of_true hreport trivial
  | DELETE k => exact iff_of_true hreport trivial

end

/-- Reads of own operations: from every reachable state, the reports of a request are
right if and only if at each operation that is reached the stale value and the order
and choice of the scan go unnoticed. -/
theorem told_right_iff {arrange : List K → List K} (harrange : ∀ l, (arrange l).Perm l)
    {s : State K β} (hs : Reachable arrange s) (c : Counts) (ps : List (Procedure K β)) :
    ToldRight c s ps ↔
      ∀ before p after, ps = before ++ p :: after → Accepted s (before ++ [p]) →
        Unnoticed c s before p := by
  have hq := hs.quiescent harrange
  constructor
  · intro h before p after hps hacc
    rw [← after_isSome_iff hq, after_append] at hacc
    obtain ⟨w', hw'⟩ := Option.isSome_iff_exists.mp hacc
    obtain ⟨w, hw, hp⟩ := Option.bind_eq_some_iff.mp hw'
    obtain ⟨t, hexec, hf⟩ := Follows.executeAll_accepted hq (Follows.begin hq) hw
    obtain ⟨t', report, hstep, -, hpairs, hreport⟩ := hf.execute_accepted hq hp
    obtain ⟨report', hpairs', htold⟩ := h before p after t [] t' hps hexec hstep
    obtain rfl : report' = report := List.append_cancel_left (hpairs'.symm.trans hpairs)
    exact (told_iff hq c hw hp hreport).mp htold
  · intro h before p after t lines t' hps hexec hstep
    cases hw : View.after s before with
    | none =>
      obtain ⟨status, lines', t₁, w, hne, hexec', -⟩ :=
        Follows.executeAll_refused hq (Follows.begin hq) hw
      rw [hexec', Option.some.injEq, Prod.mk.injEq] at hexec
      exact absurd hexec.1 hne
    | some w =>
      obtain ⟨t₁, hexec', hf⟩ := Follows.executeAll_accepted hq (Follows.begin hq) hw
      rw [hexec', Option.some.injEq, Prod.mk.injEq, Prod.mk.injEq] at hexec
      obtain ⟨-, rfl, -⟩ := hexec
      cases hp : w.next s p with
      | none =>
        obtain ⟨status, hne, hstep'⟩ := hf.execute_refused hq hp
        rw [hstep', Option.some.injEq, Prod.mk.injEq] at hstep
        exact absurd hstep.1 hne
      | some w' =>
        obtain ⟨t₂, report, hstep', -, hpairs, hreport⟩ := hf.execute_accepted hq hp
        rw [hstep', Option.some.injEq, Prod.mk.injEq] at hstep
        obtain ⟨-, rfl⟩ := hstep
        have hacc : Accepted s (before ++ [p]) := by
          rw [← after_isSome_iff hq, after_append, hw, Option.bind_some, hp]
          rfl
        exact ⟨report, hpairs, (told_iff hq c hw hp hreport).mpr (h before p after hps hacc)⟩

/-- The pairs before and after a READ that is reached and returns OK. -/
def pairsAround (s : State K β) (before : List (Procedure K β)) (k : K) :
    Option (List (K × β) × List (K × β)) :=
  match executeAll s.begin before with
  | some (.OK, t, _) =>
    match execute t (.READ k) with
    | some (.OK, t') => some (t.read_key_value_pairs, t'.read_key_value_pairs)
    | _ => none
  | _ => none

theorem not_toldRight {c : Counts} {s : State K β} (before : List (Procedure K β))
    {after : List (Procedure K β)} {k : K} (b : β) (pairs : List (K × β)) (hrun : pairsAround s before k = some (pairs, pairs ++ [(k, b)]))
    (hne : c.readValue s before k ≠ some b) : ¬ ToldRight c s (before ++ .READ k :: after) := by
  intro h
  unfold pairsAround at hrun
  split at hrun
  · rename_i t lines hexec
    split at hrun
    · rename_i t' hstep
      rw [Option.some.injEq, Prod.mk.injEq] at hrun
      obtain ⟨hpairs, hpairs'⟩ := hrun
      obtain ⟨report, hreport, b', hb', rfl⟩ := h before (.READ k) after t lines t' rfl hexec hstep
      rw [hpairs', hpairs, List.append_cancel_left_eq, List.cons.injEq, Prod.mk.injEq] at hreport
      exact hne (by rw [hb', ← hreport.1.2])
    · cases hrun
  · cases hrun

/-- A READ of a key that the transaction has just written: the client is told the value
of no READ at all. -/
theorem told_right_own_write :
    ¬ ToldRight .last twoKeys [.WRITE 0 7, .READ 0] ∧
      ¬ ToldRight .first twoKeys [.WRITE 0 7, .READ 0] :=
  ⟨not_toldRight [.WRITE 0 7] 0 [] (by decide) (by decide),
    not_toldRight [.WRITE 0 7] 0 [] (by decide) (by decide)⟩

/-- The own write is reported where only a scan looks for it. -/
theorem told_right_scan :
    Reachable byKey twoKeys ∧
      ToldRight .last twoKeys [.WRITE 0 7, .READ 1, .SCAN 0 false 0 false] := by
  refine ⟨twoKeys_reachable, (told_right_iff byKey_perm twoKeys_reachable .last _).mpr ?_⟩
  intro before p after hps _
  match before, hps with
  | [], hps =>
    simp only [List.nil_append, List.cons.injEq] at hps
    obtain ⟨rfl, -⟩ := hps
    trivial
  | [_], hps =>
    simp only [List.cons_append, List.nil_append, List.cons.injEq] at hps
    obtain ⟨rfl, rfl, -⟩ := hps
    exact Or.inl (by decide)
  | [_, _], hps =>
    simp only [List.cons_append, List.nil_append, List.cons.injEq] at hps
    obtain ⟨rfl, rfl, rfl, -⟩ := hps
    have hrange : ∀ k : Nat, inRange 0 false 0 false k = true → k = 0 := by
      intro k hk
      simpa [inRange] using hk
    constructor
    · intro k b hk hb
      obtain rfl := hrange k hk
      have hseven : held twoKeys [.WRITE 0 7, .READ 1] 0 = some 7 := by decide
      obtain rfl : 7 = b := Option.some.inj (hseven.symm.trans hb)
      decide
    · intro k k' _ hk' _ hnone
      obtain rfl := hrange k' hk'
      have hsome : held twoKeys [.WRITE 0 7, .READ 1] 0 ≠ none := by decide
      exact absurd hnone hsome
  | _ :: _ :: _ :: _, hps =>
    simp at hps

end Cassa.SiloCC.Serial

import Mathlib.Algebra.BigOperators.Ring.Finset
import Mathlib.Algebra.BigOperators.Intervals
import Mathlib.Algebra.Group.Hom.End
import Mathlib.Data.Nat.Bitwise
import Mathlib.Data.Nat.Prime.Basic
import Mathlib.Dynamics.PeriodicPts.Defs

/-!
# Generators that are linear over two elements

A word stands for the polynomial over two elements that has its bits as coefficients. Where a
ring has `r + r = 0`, such a polynomial has a value at each of its elements; and where an element
is a root of `x ^ w + low`, words of `w` bits can be multiplied modulo that polynomial without a
change of the value. So a power `t ^ n` is known from one multiplication of words for each bit
of `n`.

For an additive map `T` of a group with `s + s = 0` the value is again an additive map, and a loop
that adds up some of the states on its way applies it.
-/

namespace Cassa.Lib.LinearGenerator

section

def bit (a i : Nat) : Bool := Nat.beq (Nat.mod (Nat.div a (Nat.pow 2 i)) 2) 1

/-- The product with `x`. -/
def shift (w poly a : Nat) : Nat := bif bit a (w - 1) then (2 * a) ^^^ poly else 2 * a

/-- The product of `a` with the last `k` bits of `b`, added to `acc`. -/
def mulFrom (w poly : Nat) : (k b a acc : Nat) → Nat
  | 0, _, _, acc => acc
  | k + 1, b, a, acc => mulFrom w poly k (b / 2) (shift w poly a) (bif bit b 0 then acc ^^^ a else acc)

def mul (w poly a b : Nat) : Nat := mulFrom w poly w b a 0

/-- `x ^ n` for the last `k` bits of `n`, by squaring. -/
def pow (w poly : Nat) : (k n : Nat) → Nat
  | 0, _ => 1
  | k + 1, n =>
    let square := mul w poly (pow w poly k (n / 2)) (pow w poly k (n / 2))
    bif bit n 0 then shift w poly square else square

theorem bit_eq (a i : Nat) : bit a i = a.testBit i := by
  rw [Nat.testBit_eq_decide_div_mod_eq, Bool.eq_iff_iff, decide_eq_true_iff]
  exact Nat.beq_eq ▸ Iff.rfl

end

section

variable {R : Type*} [Ring R] {t : R} {w poly : Nat}

/-- The value at `t` of the last `w` bits. -/
def value (t : R) (w a : Nat) : R := ∑ i ∈ Finset.range w, if a.testBit i then t ^ i else 0

theorem value_zero : value t w 0 = 0 := by
  simp [value]

theorem value_one (hw : 0 < w) : value t w 1 = 1 := by
  have hbit : ∀ i ∈ Finset.range w, (if (1 : Nat).testBit i then t ^ i else 0) = if i = 0 then 1 else 0 := by
    intro i _
    rw [show (1 : Nat) = 2 ^ 0 from rfl, Nat.testBit_two_pow]
    by_cases h : i = 0
    · subst h
      simp
    · simp [h, Ne.symm h]
  rw [value, Finset.sum_congr rfl hbit, Finset.sum_ite_eq' (Finset.range w) 0, if_pos (Finset.mem_range.mpr hw)]

theorem value_xor (h2 : ∀ r : R, r + r = 0) (a b : Nat) : value t w (a ^^^ b) = value t w a + value t w b := by
  unfold value
  rw [← Finset.sum_add_distrib]
  refine Finset.sum_congr rfl fun i _ => ?_
  rw [Nat.testBit_xor]
  cases a.testBit i <;> cases b.testBit i <;> simp [h2]

/-- A word of `v` bits before one of `w` bits. -/
theorem value_append {v lo : Nat} (hlo : lo < 2 ^ w) (hi : Nat) :
    value t (w + v) (2 ^ w * hi + lo) = value t w lo + value t v hi * t ^ w := by
  unfold value
  rw [Finset.sum_mul, Finset.sum_range_add]
  congr 1
  · refine Finset.sum_congr rfl fun i hi' => ?_
    rw [Nat.testBit_two_pow_mul_add _ hlo, if_pos (Finset.mem_range.mp hi')]
  · refine Finset.sum_congr rfl fun i _ => ?_
    rw [Nat.testBit_two_pow_mul_add _ hlo, if_neg (Nat.not_lt.mpr (Nat.le_add_right w i)), Nat.add_sub_cancel_left,
      Nat.add_comm w i, pow_add]
    split
    · rfl
    · rw [zero_mul]

theorem value_two_mul (n a : Nat) :
    value t (n + 1) (2 * a) + (if a.testBit n then t ^ (n + 1) else 0) = t * value t (n + 1) a := by
  unfold value
  rw [Finset.sum_range_succ', Finset.mul_sum, Finset.sum_range_succ _ n]
  simp only [Nat.testBit_succ, Nat.mul_div_cancel_left _ Nat.two_pos, mul_ite, mul_zero, ← pow_succ']
  simp

theorem value_shift (h2 : ∀ r : R, r + r = 0) (hpoly : t ^ w = value t w poly) (a : Nat) :
    value t w (shift w poly a) = t * value t w a := by
  cases w with
  | zero => simp [value]
  | succ n =>
    rw [← value_two_mul, shift, Nat.add_sub_cancel, bit_eq]
    cases a.testBit n with
    | false => simp
    | true => rw [cond_true, value_xor h2, if_pos rfl, hpoly]

theorem value_mulFrom (h2 : ∀ r : R, r + r = 0) (hpoly : t ^ w = value t w poly) (k b a acc : Nat) :
    value t w (mulFrom w poly k b a acc) = value t w acc + value t k b * value t w a := by
  induction k generalizing b a acc with
  | zero => rw [mulFrom, value, value, Finset.range_zero, Finset.sum_empty, zero_mul, add_zero]
  | succ k ih =>
    have hb : value t (k + 1) b = value t k (b / 2) * t + if b.testBit 0 then 1 else 0 := by
      unfold value
      rw [Finset.sum_range_succ', Finset.sum_mul, pow_zero]
      congr 1
      refine Finset.sum_congr rfl fun j _ => ?_
      rw [Nat.testBit_succ, ite_mul, zero_mul, pow_succ]
    rw [mulFrom, ih, value_shift h2 hpoly, hb, bit_eq, add_mul, mul_assoc, add_comm (_ * _), ← add_assoc]
    congr 1
    cases b.testBit 0 with
    | false => simp
    | true => rw [cond_true, value_xor h2, if_pos rfl, one_mul]

theorem value_mul (h2 : ∀ r : R, r + r = 0) (hpoly : t ^ w = value t w poly) (a b : Nat) :
    value t w (mul w poly a b) = value t w b * value t w a := by
  rw [mul, value_mulFrom h2 hpoly, value_zero, zero_add]

theorem value_pow (h2 : ∀ r : R, r + r = 0) (hpoly : t ^ w = value t w poly) (hw : 0 < w) (k n : Nat) :
    value t w (pow w poly k n) = t ^ (n % 2 ^ k) := by
  induction k generalizing n with
  | zero => rw [pow, value_one hw, pow_zero, Nat.mod_one, pow_zero]
  | succ k ih =>
    have hsquare : value t w (mul w poly (pow w poly k (n / 2)) (pow w poly k (n / 2))) = t ^ (2 * (n / 2 % 2 ^ k)) := by
      rw [value_mul h2 hpoly, ih, ← pow_add, Nat.two_mul]
    have hmod : n % 2 ^ (k + 1) = n % 2 + 2 * (n / 2 % 2 ^ k) := by
      rw [Nat.pow_succ, Nat.mul_comm, Nat.mod_mul]
    rw [pow, hmod, bit_eq, Nat.testBit_zero]
    rcases Nat.mod_two_eq_zero_or_one n with h | h
    · rw [h, decide_eq_false (by decide), cond_false, hsquare, Nat.zero_add]
    · rw [h, decide_eq_true rfl, cond_true, value_shift h2 hpoly, hsquare, pow_add, pow_one]

end

section

variable {S : Type*} [AddCommGroup S]

theorem end_add_apply (T U : AddMonoid.End S) (s : S) : (T + U) s = T s + U s := rfl

theorem end_mul_apply (T U : AddMonoid.End S) (s : S) : (T * U) s = T (U s) := rfl

/-- `next` is called `k` times, and the states before it are added up for the bits of `a` from `i` on. -/
def accumulate (next : S → S) (a : Nat) : (k i : Nat) → S → S → S × S
  | 0, _, acc, s => (acc, s)
  | k + 1, i, acc, s => accumulate next a k (i + 1) (if a.testBit i then acc + s else acc) (next s)

theorem accumulate_eq (T : AddMonoid.End S) (a k i : Nat) (acc s : S) :
    accumulate T a k i acc s = (acc + value T k (a / 2 ^ i) s, (T ^ k) s) := by
  induction k generalizing i acc s with
  | zero => simp [accumulate, value]
  | succ k ih =>
    have hvalue : value T (k + 1) (a / 2 ^ i) s = (if a.testBit i then s else 0) + value T k (a / 2 ^ (i + 1)) (T s) := by
      have hshift : value T (k + 1) (a / 2 ^ i) = (if a.testBit i then 1 else 0) + value T k (a / 2 ^ (i + 1)) * T := by
        unfold value
        rw [Finset.sum_range_succ', Finset.sum_mul, add_comm]
        congr 1
        · rw [Nat.testBit_div_two_pow, Nat.zero_add, pow_zero]
        · refine Finset.sum_congr rfl fun j _ => ?_
          rw [Nat.testBit_div_two_pow, Nat.testBit_div_two_pow, show j + 1 + i = j + (i + 1) by omega, ite_mul, zero_mul,
            pow_succ]
      rw [hshift, end_add_apply, end_mul_apply]
      congr 1
      split <;> rfl
    rw [accumulate, ih, hvalue, pow_succ T, end_mul_apply]
    congr 1
    split
    · rw [add_assoc]
    · rw [zero_add]

theorem accumulate_value (T : AddMonoid.End S) (a k : Nat) (acc s : S) :
    accumulate T a k 0 acc s = (acc + value T k a s, (T ^ k) s) := by
  rw [accumulate_eq, Nat.pow_zero, Nat.div_one]

/-- Nothing but zero has a period that divides `m` when `T ^ m + 1` has an inverse. -/
theorem not_isPeriodicPt (h2 : ∀ s : S, s + s = 0) {T U : AddMonoid.End S} {m : Nat} (hU : U * (T ^ m + 1) = 1) {s : S}
    (hs : s ≠ 0) : ¬Function.IsPeriodicPt T m s := by
  intro h
  have hm : (T ^ m) s = s := by
    rw [AddMonoid.End.coe_pow]
    exact h
  have hzero : (T ^ m + 1) s = 0 := by
    rw [end_add_apply, hm]
    exact h2 s
  apply hs
  calc s = (U * (T ^ m + 1)) s := by rw [hU, AddMonoid.End.one_apply]
    _ = 0 := by rw [end_mul_apply, hzero, map_zero]

end

/-- A state that no `N / q`, for the primes `q` of `N`, brings back has the whole period `N`. -/
theorem minimalPeriod_eq {S : Type*} {T : S → S} {s : S} {N : Nat} (hN : Function.IsPeriodicPt T N s)
    (hq : ∀ q, q.Prime → q ∣ N → ¬Function.IsPeriodicPt T (N / q) s) : Function.minimalPeriod T s = N := by
  obtain ⟨c, hc⟩ := hN.minimalPeriod_dvd
  by_contra hne
  have hc1 : c ≠ 1 := by
    rintro rfl
    exact hne (by rw [hc, Nat.mul_one])
  obtain ⟨q, hprime, d, rfl⟩ := Nat.exists_prime_and_dvd hc1
  have hNq : N / q = Function.minimalPeriod T s * d := by
    rw [hc, Nat.mul_left_comm]
    exact Nat.mul_div_cancel_left _ hprime.pos
  refine hq q hprime ⟨Function.minimalPeriod T s * d, by rw [hc, Nat.mul_left_comm]⟩ ?_
  rw [hNq]
  exact (Function.isPeriodicPt_minimalPeriod T s).mul_const d

end Cassa.Lib.LinearGenerator

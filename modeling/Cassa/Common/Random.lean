import Cassa.Lib.LinearGenerator
import Mathlib.Algebra.BigOperators.Group.List.Basic
import Mathlib.Data.Fintype.Prod
import Mathlib.NumberTheory.LucasPrimality
import Mathlib.SetTheory.Cardinal.Finite
import Mathlib.Tactic.NormNum.Prime
import Mathlib.Tactic.ReduceModChar

/-!
The random numbers behind session ids and the choice of a worker. The state is two words, and
every change of it is linear over two elements, so a step, a jump and the period are facts about
one polynomial of degree 128.
-/
namespace Cassa.Common.Random

open Lib.LinearGenerator

/-- The two words `s[0]` and `s[1]`. -/
@[ext] structure Xoroshiro128Plus where
  s0 : BitVec 64
  s1 : BitVec 64
deriving DecidableEq

namespace Xoroshiro128Plus

def splitMix64 (seed : BitVec 64) : BitVec 64 :=
  let z := seed + 0x9e3779b97f4a7c15
  let z := (z ^^^ (z >>> 30)) * 0xbf58476d1ce4e5b9
  let z := (z ^^^ (z >>> 27)) * 0x94d049bb133111eb
  z ^^^ (z >>> 31)

/-- `init_seed` is what `sgx_read_rand` gives, four bytes. -/
def init (init_seed : BitVec 32) : Xoroshiro128Plus :=
  ⟨init_seed.setWidth 64, splitMix64 (init_seed.setWidth 64)⟩

def rotl (x : BitVec 64) (k : Nat) : BitVec 64 := (x <<< k) ||| (x >>> (64 - k))

/-- The result and the state that is left. -/
def next (r : Xoroshiro128Plus) : BitVec 64 × Xoroshiro128Plus :=
  let s0 := r.s0
  let s1 := r.s1
  let result := s0 + s1
  let s1 := s1 ^^^ s0
  (result, ⟨rotl s0 24 ^^^ s1 ^^^ (s1 <<< 16), rotl s1 37⟩)

def advance (r : Xoroshiro128Plus) : Xoroshiro128Plus := (next r).2

/-- The inner loop of `jump` for the word `J`, from bit `b` on. -/
def jumpBits (J : BitVec 64) : (k b : Nat) → Xoroshiro128Plus → Xoroshiro128Plus → Xoroshiro128Plus × Xoroshiro128Plus
  | 0, _, acc, r => (acc, r)
  | k + 1, b, acc, r =>
    jumpBits J k (b + 1) (if J &&& (1#64 <<< b) ≠ 0 then ⟨acc.s0 ^^^ r.s0, acc.s1 ^^^ r.s1⟩ else acc) (next r).2

def jumpWith (words : List (BitVec 64)) (r : Xoroshiro128Plus) : Xoroshiro128Plus :=
  (words.foldl (fun s J => jumpBits J 64 0 s.1 s.2) (⟨0, 0⟩, r)).1

def JUMP : List (BitVec 64) := [0xdf900294d8f554a5, 0x170865df4b3201fc]

def LONG_JUMP : List (BitVec 64) := [0xd2a98b26625eee7b, 0xdddf9b1090aa7ac1]

def jump (r : Xoroshiro128Plus) : Xoroshiro128Plus := jumpWith JUMP r

def long_jump (r : Xoroshiro128Plus) : Xoroshiro128Plus := jumpWith LONG_JUMP r

instance : Zero Xoroshiro128Plus := ⟨⟨0, 0⟩⟩
instance : Add Xoroshiro128Plus := ⟨fun r q => ⟨r.s0 ^^^ q.s0, r.s1 ^^^ q.s1⟩⟩
instance : Neg Xoroshiro128Plus := ⟨id⟩

@[simp] theorem zero_s0 : (0 : Xoroshiro128Plus).s0 = 0 := rfl
@[simp] theorem zero_s1 : (0 : Xoroshiro128Plus).s1 = 0 := rfl
@[simp] theorem add_s0 (r q : Xoroshiro128Plus) : (r + q).s0 = r.s0 ^^^ q.s0 := rfl
@[simp] theorem add_s1 (r q : Xoroshiro128Plus) : (r + q).s1 = r.s1 ^^^ q.s1 := rfl

theorem add_self (r : Xoroshiro128Plus) : r + r = 0 := by
  ext1 <;> simp

instance : AddCommGroup Xoroshiro128Plus where
  add_assoc a b c := by ext1 <;> simp [BitVec.xor_assoc]
  zero_add a := by ext1 <;> simp
  add_zero a := by ext1 <;> simp
  add_comm a b := by ext1 <;> simp [BitVec.xor_comm]
  neg_add_cancel := add_self
  nsmul := nsmulRec
  zsmul := zsmulRec

theorem end_add_self (T : AddMonoid.End Xoroshiro128Plus) : T + T = 0 :=
  AddMonoidHom.ext fun r => add_self (T r)

theorem rotl_xor (x y : BitVec 64) (k : Nat) : rotl (x ^^^ y) k = rotl x k ^^^ rotl y k := by
  apply BitVec.eq_of_getLsbD_eq
  intro i hi
  simp only [rotl, BitVec.getLsbD_or, BitVec.getLsbD_shiftLeft, BitVec.getLsbD_ushiftRight, BitVec.getLsbD_xor]
  by_cases h : i < k
  · simp [h]
  · have hk : x.getLsbD (64 - k + i) = false ∧ y.getLsbD (64 - k + i) = false :=
      ⟨BitVec.getLsbD_of_ge x _ (by omega), BitVec.getLsbD_of_ge y _ (by omega)⟩
    simp [h, hi, hk]

theorem xor_left_comm (x y z : BitVec 64) : x ^^^ (y ^^^ z) = y ^^^ (x ^^^ z) := by
  rw [← BitVec.xor_assoc, BitVec.xor_comm x y, BitVec.xor_assoc]

/-- A call of `next` as an additive map. -/
def step : AddMonoid.End Xoroshiro128Plus where
  toFun := advance
  map_zero' := by decide
  map_add' r q := by
    ext1
    · simp only [advance, next, add_s0, add_s1, rotl_xor, BitVec.shiftLeft_xor_distrib, BitVec.xor_assoc,
        xor_left_comm]
    · simp only [advance, next, add_s0, add_s1, rotl_xor, BitVec.xor_assoc, xor_left_comm]

theorem coe_step : ⇑step = advance := rfl

theorem step_pow (n : Nat) (r : Xoroshiro128Plus) : (step ^ n) r = advance^[n] r := by
  rw [AddMonoid.End.coe_pow, coe_step]

/-- State `i` of the 128 with one bit set. -/
def unit (i : Nat) : Xoroshiro128Plus := if i < 64 then ⟨1#64 <<< i, 0⟩ else ⟨0, 1#64 <<< (i - 64)⟩

theorem word_induction {P : BitVec 64 → Prop} (zero : P 0) (bit : ∀ i < 64, P (1#64 <<< i))
    (xor : ∀ x y, P x → P y → P (x ^^^ y)) (x : BitVec 64) : P x := by
  have hbits : ∀ k ≤ 64, ∀ x : BitVec 64, (∀ i, k ≤ i → x.getLsbD i = false) → P x := by
    intro k hk
    induction k with
    | zero =>
      intro x hx
      rwa [show x = 0 from BitVec.eq_of_getLsbD_eq fun i _ => by rw [hx i (Nat.zero_le i)]; simp]
    | succ k ih =>
      intro x hx
      cases hbit : x.getLsbD k with
      | false =>
        refine ih (by omega) x fun i hi => ?_
        rcases Nat.eq_or_lt_of_le hi with rfl | h
        · exact hbit
        · exact hx i h
      | true =>
        have hrest : P (x ^^^ (1#64 <<< k)) := by
          refine ih (by omega) _ fun i hi => ?_
          rcases Nat.eq_or_lt_of_le hi with rfl | h
          · simp [hbit, show k < 64 by omega]
          · have hne : i - k ≠ 0 := by omega
            simp [hx i h, BitVec.getLsbD_one, hne]
        have hx : x = (x ^^^ (1#64 <<< k)) ^^^ (1#64 <<< k) := by
          rw [BitVec.xor_assoc, BitVec.xor_self, BitVec.xor_zero]
        rw [hx]
        exact xor _ _ hrest (bit k (by omega))
  exact hbits 64 (Nat.le_refl 64) x fun i hi => BitVec.getLsbD_of_ge x i hi

theorem end_ext {T U : AddMonoid.End Xoroshiro128Plus} (h : ∀ i < 128, T (unit i) = U (unit i)) : T = U := by
  have h0 : ∀ x : BitVec 64, T ⟨x, 0⟩ = U ⟨x, 0⟩ := by
    refine word_induction ?_ ?_ ?_
    · exact (map_zero T).trans (map_zero U).symm
    · intro i hi
      have := h i (by omega)
      rwa [unit, if_pos hi] at this
    · intro x y hx hy
      rw [show (⟨x ^^^ y, 0⟩ : Xoroshiro128Plus) = ⟨x, 0⟩ + ⟨y, 0⟩ by ext1 <;> simp, map_add, map_add, hx, hy]
  have h1 : ∀ x : BitVec 64, T ⟨0, x⟩ = U ⟨0, x⟩ := by
    refine word_induction ?_ ?_ ?_
    · exact (map_zero T).trans (map_zero U).symm
    · intro i hi
      have := h (i + 64) (by omega)
      rwa [unit, if_neg (by omega), Nat.add_sub_cancel] at this
    · intro x y hx hy
      rw [show (⟨0, x ^^^ y⟩ : Xoroshiro128Plus) = ⟨0, x⟩ + ⟨0, y⟩ by ext1 <;> simp, map_add, map_add, hx, hy]
  refine DFunLike.ext _ _ fun r => ?_
  have hr : r = ⟨r.s0, 0⟩ + ⟨0, r.s1⟩ := by
    ext1 <;> simp
  rw [hr, map_add, map_add, h0, h1]

/-- The characteristic polynomial of a step. -/
def poly : Nat := 0x10008828e513b43d5095b8f76579aa001

set_option maxRecDepth 100000 in
theorem units_checked : ((List.range 128).all fun i =>
    let s := accumulate advance poly 128 0 0 (unit i)
    decide (s.1 = s.2)) = true := by
  decide +kernel

theorem step_root : step ^ 128 = value step 128 poly := by
  refine end_ext fun i hi => ?_
  have hcheck := List.all_eq_true.mp units_checked i (List.mem_range.mpr hi)
  have hvalue := accumulate_value step poly 128 0 (unit i)
  rw [zero_add] at hvalue
  rw [← coe_step, hvalue] at hcheck
  exact (of_decide_eq_true hcheck).symm

theorem value_step_pow (k n : Nat) : value step 128 (pow 128 poly k n) = step ^ (n % 2 ^ k) :=
  value_pow end_add_self step_root (by decide) k n

theorem bit_set (J : BitVec 64) (b : Nat) : J &&& (1#64 <<< b) ≠ 0 ↔ J.toNat.testBit b := by
  have hbit : ∀ i < 64, (J &&& (1#64 <<< b)).getLsbD i = (J.getLsbD i && decide (i = b)) := by
    intro i hi
    rw [BitVec.getLsbD_and, BitVec.getLsbD_shiftLeft, BitVec.getLsbD_one]
    by_cases h : i = b
    · subst h
      simp [hi]
    · have : i < b ∨ i - b ≠ 0 := by omega
      rcases this with h' | h' <;> simp [h, h']
  constructor
  · intro hne
    by_contra hb
    apply hne
    apply BitVec.eq_of_getLsbD_eq
    intro i hi
    rw [hbit i hi]
    by_cases h : i = b
    · subst h
      simpa [BitVec.getLsbD] using hb
    · simp [h]
  · intro hb hzero
    have hlt : b < 64 := BitVec.lt_of_getLsbD (x := J) hb
    have := hbit b hlt
    rw [hzero, decide_eq_true rfl, Bool.and_true] at this
    exact absurd (this.trans hb) (by simp)

theorem jumpBits_eq (J : BitVec 64) (k b : Nat) (acc r : Xoroshiro128Plus) :
    jumpBits J k b acc r = accumulate step J.toNat k b acc r := by
  induction k generalizing b acc r with
  | zero => rfl
  | succ k ih =>
    rw [jumpBits, accumulate, ih]
    simp only [bit_set]
    rfl

/-- The states added up in a jump are a word of 128 bits at the step. -/
theorem jumpWith_eq (lo hi : BitVec 64) (r : Xoroshiro128Plus) :
    jumpWith [lo, hi] r = value step 128 (2 ^ 64 * hi.toNat + lo.toNat) r := by
  rw [value_append (w := 64) (v := 64) lo.isLt]
  simp only [jumpWith, List.foldl, jumpBits_eq, accumulate_value]
  rw [end_add_apply, end_mul_apply, show (⟨0, 0⟩ : Xoroshiro128Plus) = 0 from rfl, zero_add]

set_option maxRecDepth 100000 in
theorem jump_word : pow 128 poly 65 (2 ^ 64) = 2 ^ 64 * 0x170865df4b3201fc + 0xdf900294d8f554a5 := by
  decide +kernel

set_option maxRecDepth 100000 in
theorem long_jump_word : pow 128 poly 97 (2 ^ 96) = 2 ^ 64 * 0xdddf9b1090aa7ac1 + 0xd2a98b26625eee7b := by
  decide +kernel

theorem jump_eq (r : Xoroshiro128Plus) : jump r = advance^[2 ^ 64] r := by
  have hword := value_step_pow 65 (2 ^ 64)
  rw [jump_word, Nat.mod_eq_of_lt (by decide)] at hword
  rw [jump, JUMP, jumpWith_eq, ← step_pow, ← hword]
  rfl

theorem long_jump_eq (r : Xoroshiro128Plus) : long_jump r = advance^[2 ^ 96] r := by
  have hword := value_step_pow 97 (2 ^ 96)
  rw [long_jump_word, Nat.mod_eq_of_lt (by decide)] at hword
  rw [long_jump, LONG_JUMP, jumpWith_eq, ← step_pow, ← hword]
  rfl

/-- What the comments on the two functions say of them. -/
theorem jumps_eq_calls (r : Xoroshiro128Plus) : jump r = advance^[2 ^ 64] r ∧ long_jump r = advance^[2 ^ 96] r :=
  ⟨jump_eq r, long_jump_eq r⟩

def period : Nat := 2 ^ 128 - 1

/-- The primes of the period; the second word is the inverse of `step ^ (period / q) + 1`. -/
def inverses : List (Nat × Nat) :=
  [(3, 0x28ad2cf3e09d85f0dc40f461d2c2c7d8), (5, 0xbe5308ec69514dc2ca8939e8bb7cc7f3),
    (17, 0xb033aadb8e620d5380760c3edaa7db8), (257, 0x30e5aaf1d16d836bb08347f6b98df9d6),
    (641, 0x6ec2b2abc5012855a81493c7e42b2476), (65537, 0x3c13da96bdf060b8b178dd43e7c56a9e),
    (274177, 0x37430ca27c542004fe3ea4c3ea9f5ebc), (6700417, 0xfbf5d1e791cb791fc6077daa37669ed5),
    (67280421310721, 0x55db575fb05489582681f5f2a0a72912)]

set_option maxRecDepth 100000 in
theorem inverses_checked :
    (inverses.all fun c => Nat.beq (mul 128 poly (pow 128 poly 128 (period / c.1) ^^^ 1) c.2) 1) = true := by
  decide +kernel

set_option maxRecDepth 100000 in
theorem period_word : pow 128 poly 128 period = 1 := by
  decide +kernel

theorem period_lt : period < 2 ^ 128 := Nat.sub_lt (Nat.two_pow_pos 128) Nat.one_pos

theorem inverse_word {c : Nat × Nat} (hc : c ∈ inverses) :
    mul 128 poly (pow 128 poly 128 (period / c.1) ^^^ 1) c.2 = 1 :=
  Nat.eq_of_beq_eq_true (List.all_eq_true.mp inverses_checked c hc)

theorem prime_67280421310721 : Nat.Prime 67280421310721 := by
  have hfactors : 67280421310721 - 1 = [2, 2, 2, 2, 2, 2, 2, 2, 5, 47, 373, 2998279].prod := by norm_num
  refine lucas_primality _ 3 (by reduce_mod_char) fun q hq hdvd => ?_
  have hprimes : ∀ p ∈ [2, 2, 2, 2, 2, 2, 2, 2, 5, 47, 373, 2998279], p.Prime := by norm_num
  rw [hfactors, hq.prime.dvd_prod_iff] at hdvd
  obtain ⟨p, hp, hdvd⟩ := hdvd
  obtain rfl : q = p := (Nat.prime_dvd_prime_iff_eq hq (hprimes p hp)).mp hdvd
  have hq : q = 2 ∨ q = 5 ∨ q = 47 ∨ q = 373 ∨ q = 2998279 := by simpa using hp
  rcases hq with rfl | rfl | rfl | rfl | rfl
  all_goals
    norm_num only
    reduce_mod_char
    decide

theorem primes_checked : ∀ c ∈ inverses, c.1.Prime := by
  simp only [inverses, List.forall_mem_cons]
  refine ⟨?_, ?_, ?_, ?_, ?_, ?_, ?_, ?_, prime_67280421310721, by simp⟩ <;> norm_num only

theorem exists_inverse {q : Nat} (hq : q.Prime) (h : q ∣ period) : ∃ c ∈ inverses, c.1 = q := by
  have hprod : period = (inverses.map Prod.fst).prod := by norm_num [period, inverses]
  rw [hprod, hq.prime.dvd_prod_iff] at h
  obtain ⟨p, hp, hdvd⟩ := h
  obtain ⟨c, hc, rfl⟩ := List.mem_map.mp hp
  exact ⟨c, hc, ((Nat.prime_dvd_prime_iff_eq hq (primes_checked c hc)).mp hdvd).symm⟩

theorem advance_period (r : Xoroshiro128Plus) : advance^[period] r = r := by
  have hword := value_step_pow 128 period
  rw [period_word, value_one (by decide), Nat.mod_eq_of_lt period_lt] at hword
  rw [← step_pow, ← hword, AddMonoid.End.one_apply]

/-- Every state but zero comes back after `2 ^ 128 - 1` calls and not before. -/
theorem minimalPeriod_advance {r : Xoroshiro128Plus} (hr : r ≠ 0) : Function.minimalPeriod advance r = period := by
  refine minimalPeriod_eq (advance_period r) fun q hq hdvd => ?_
  obtain ⟨c, hc, rfl⟩ := exists_inverse hq hdvd
  have hinverse : value step 128 c.2 * (step ^ (period / c.1) + 1) = 1 := by
    have hone : value step 128 1 = 1 := value_one (by decide)
    have hmul := value_mul end_add_self step_root (pow 128 poly 128 (period / c.1) ^^^ 1) c.2
    rwa [inverse_word hc, value_xor end_add_self, hone, value_step_pow,
      Nat.mod_eq_of_lt (Nat.lt_of_le_of_lt (Nat.div_le_self _ _) period_lt), eq_comm] at hmul
  rw [← coe_step]
  exact not_isPeriodicPt add_self hinverse hr

theorem init_ne_zero (init_seed : BitVec 32) : init init_seed ≠ 0 := by
  intro h
  have h0 : init_seed.setWidth 64 = 0 := congrArg s0 h
  have h1 : splitMix64 (init_seed.setWidth 64) = 0 := congrArg s1 h
  rw [h0] at h1
  exact absurd h1 (by decide)

/-- The state after `i` long jumps, then `j` jumps, then `a` calls of `next`. -/
def subsequence (r : Xoroshiro128Plus) (i j a : Nat) : Xoroshiro128Plus := advance^[a] (jump^[j] (long_jump^[i] r))

theorem subsequence_eq (r : Xoroshiro128Plus) (i j a : Nat) :
    subsequence r i j a = advance^[a + 2 ^ 64 * j + 2 ^ 96 * i] r := by
  have hjump : jump = advance^[2 ^ 64] := funext jump_eq
  have hlong : long_jump = advance^[2 ^ 96] := funext long_jump_eq
  rw [subsequence, hjump, hlong, ← Function.iterate_mul, ← Function.iterate_mul, ← Function.iterate_add_apply,
    ← Function.iterate_add_apply, Nat.add_assoc]

/-- Of the `2 ^ 128` states of `2 ^ 32` long jumps, `2 ^ 32` jumps and `2 ^ 64` calls, the first and the last are the
same and no others are. -/
theorem subsequence_eq_iff {r : Xoroshiro128Plus} (hr : r ≠ 0) {i i' j j' a a' : Nat} (hi : i < 2 ^ 32)
    (hi' : i' < 2 ^ 32) (hj : j < 2 ^ 32) (hj' : j' < 2 ^ 32) (ha : a < 2 ^ 64) (ha' : a' < 2 ^ 64) :
    subsequence r i j a = subsequence r i' j' a' ↔
      (i, j, a) = (i', j', a') ∨
      (i, j, a) = (0, 0, 0) ∧ (i', j', a') = (2 ^ 32 - 1, 2 ^ 32 - 1, 2 ^ 64 - 1) ∨
      (i, j, a) = (2 ^ 32 - 1, 2 ^ 32 - 1, 2 ^ 64 - 1) ∧ (i', j', a') = (0, 0, 0) := by
  have hperiod := minimalPeriod_advance hr
  have hwrap := advance_period r
  have hcases : ∀ n, n < 2 ^ 128 → n < period ∨ n = period := by
    intro n hn
    unfold period
    omega
  have hinj : ∀ {m n}, m < period → n < period → advance^[m] r = advance^[n] r → m = n := by
    intro m n hm hn h
    rw [← hperiod] at hm hn
    exact (Function.iterate_eq_iterate_iff_of_lt_minimalPeriod hm hn).mp h
  rw [subsequence_eq, subsequence_eq]
  simp only [Prod.mk.injEq]
  constructor
  · intro h
    rcases hcases (a + 2 ^ 64 * j + 2 ^ 96 * i) (by omega) with hlt | hlast <;>
      rcases hcases (a' + 2 ^ 64 * j' + 2 ^ 96 * i') (by omega) with hlt' | hlast'
    · have := hinj hlt hlt' h
      omega
    · rw [hlast', hwrap] at h
      have := hinj hlt (by unfold period; omega) (h.trans (Function.iterate_zero_apply advance r).symm)
      unfold period at hlast'
      omega
    · rw [hlast, hwrap] at h
      have := hinj hlt' (by unfold period; omega) (h.symm.trans (Function.iterate_zero_apply advance r).symm)
      unfold period at hlast
      omega
    · unfold period at hlast hlast'
      omega
  · have hlast : 2 ^ 64 - 1 + 2 ^ 64 * (2 ^ 32 - 1) + 2 ^ 96 * (2 ^ 32 - 1) = period := by
      norm_num [period]
    rintro (⟨rfl, rfl, rfl⟩ | ⟨⟨rfl, rfl, rfl⟩, rfl, rfl, rfl⟩ | ⟨⟨rfl, rfl, rfl⟩, rfl, rfl, rfl⟩)
    · rfl
    · rw [hlast, hwrap]
      rfl
    · rw [hlast, hwrap]
      rfl

theorem subsequence_eq_iff_init :
    subsequence (init 0) 0 0 0 = subsequence (init 0) (2 ^ 32 - 1) (2 ^ 32 - 1) (2 ^ 64 - 1) :=
  (subsequence_eq_iff (init_ne_zero 0) (by decide) (by decide) (by decide) (by decide) (by decide) (by decide)).mpr
    (.inr (.inl ⟨rfl, rfl⟩))

def ofFins : Fin (2 ^ 64) × Fin (2 ^ 64) ≃ Xoroshiro128Plus where
  toFun p := ⟨⟨p.1⟩, ⟨p.2⟩⟩
  invFun r := (r.s0.toFin, r.s1.toFin)
  left_inv _ := rfl
  right_inv _ := rfl

instance : Finite Xoroshiro128Plus := Finite.of_equiv _ ofFins

noncomputable instance : Fintype Xoroshiro128Plus := Fintype.ofFinite _

theorem card_states : Fintype.card Xoroshiro128Plus = 2 ^ 128 := by
  rw [← Nat.card_eq_fintype_card, ← Nat.card_congr ofFins, Nat.card_prod, Nat.card_fin, ← pow_add]

theorem advance_injective : Function.Injective advance := by
  have hinverse : Function.LeftInverse advance^[period - 1] advance := fun r => by
    rw [← Function.iterate_succ_apply]
    exact advance_period r
  exact hinverse.injective

theorem iterate_advance_ne_zero {r : Xoroshiro128Plus} (hr : r ≠ 0) (n : Nat) : advance^[n] r ≠ 0 := by
  have hzero : advance^[n] 0 = 0 := Function.iterate_fixed (map_zero step) n
  exact fun h => hr (advance_injective.iterate n (h.trans hzero.symm))

theorem iterate_advance_injOn {r : Xoroshiro128Plus} (hr : r ≠ 0) :
    Set.InjOn (fun n => advance^[n] r) (Finset.range period) := by
  rw [Finset.coe_range, ← minimalPeriod_advance hr]
  exact Function.iterate_injOn_Iio_minimalPeriod

/-- The states that come from `r` are all but zero. -/
theorem image_advance {r : Xoroshiro128Plus} (hr : r ≠ 0) :
    (Finset.range period).image (fun n => advance^[n] r) = Finset.univ.erase 0 := by
  have hcard : (Finset.univ.erase (0 : Xoroshiro128Plus)).card = period := by
    rw [Finset.card_erase_of_mem (Finset.mem_univ _), Finset.card_univ, card_states, period]
  refine Finset.eq_of_subset_of_card_le ?_ ?_
  · intro q hq
    obtain ⟨n, -, rfl⟩ := Finset.mem_image.mp hq
    exact Finset.mem_erase.mpr ⟨iterate_advance_ne_zero hr n, Finset.mem_univ _⟩
  · rw [Finset.card_image_of_injOn (iterate_advance_injOn hr), Finset.card_range, hcard]

/-- The states with the result `v`. -/
theorem filter_result (v : BitVec 64) :
    (Finset.univ.erase (0 : Xoroshiro128Plus)).filter (fun q => (next q).1 = v) =
      (Finset.univ.image fun x : Fin (2 ^ 64) => (⟨BitVec.ofFin x, v - BitVec.ofFin x⟩ : Xoroshiro128Plus)).erase 0 := by
  ext q
  simp only [Finset.mem_filter, Finset.mem_erase, Finset.mem_univ, and_true, Finset.mem_image, true_and]
  refine and_congr_right fun _ => ⟨fun h => ⟨q.s0.toFin, ?_⟩, ?_⟩
  · ext1
    · rfl
    · rw [← h, BitVec.ofFin_toFin]
      exact (congrArg (· - q.s0) (BitVec.add_comm q.s0 q.s1)).trans (BitVec.add_sub_cancel q.s1 q.s0)
  · rintro ⟨x, rfl⟩
    exact (BitVec.add_comm _ _).trans (BitVec.sub_add_cancel _ _)

/-- In a period every result is returned `2 ^ 64` times, and 0 once less. -/
theorem count_results {r : Xoroshiro128Plus} (hr : r ≠ 0) (v : BitVec 64) :
    ((Finset.range period).filter fun n => (next (advance^[n] r)).1 = v).card = if v = 0 then 2 ^ 64 - 1 else 2 ^ 64 := by
  have hinj : Function.Injective fun x : Fin (2 ^ 64) =>
      (⟨BitVec.ofFin x, v - BitVec.ofFin x⟩ : Xoroshiro128Plus) := fun x y h => by
    simpa using congrArg s0 h
  have hmem : (0 : Xoroshiro128Plus) ∈ (Finset.univ.image fun x : Fin (2 ^ 64) =>
      (⟨BitVec.ofFin x, v - BitVec.ofFin x⟩ : Xoroshiro128Plus)) ↔ v = 0 := by
    simp only [Finset.mem_image, Finset.mem_univ, true_and]
    constructor
    · rintro ⟨x, hx⟩
      have hx0 : BitVec.ofFin x = 0 := congrArg s0 hx
      have hx1 : v - BitVec.ofFin x = 0 := congrArg s1 hx
      simpa [hx0] using hx1
    · rintro rfl
      exact ⟨0, rfl⟩
  rw [← Finset.card_image_of_injOn ((iterate_advance_injOn hr).mono (Finset.filter_subset _ _)),
    ← Finset.filter_image (p := fun q => (next q).1 = v), image_advance hr, filter_result]
  split
  · rw [Finset.card_erase_of_mem (hmem.mpr ‹_›), Finset.card_image_of_injective _ hinj, Finset.card_univ, Fintype.card_fin]
  · rw [Finset.erase_eq_of_notMem (fun h => absurd (hmem.mp h) ‹_›), Finset.card_image_of_injective _ hinj,
      Finset.card_univ, Fintype.card_fin]

theorem count_results_init :
    ((Finset.range period).filter fun n => (next (advance^[n] (init 0))).1 = 1).card = 2 ^ 64 := by
  rw [count_results (init_ne_zero 0)]
  rfl

end Xoroshiro128Plus

end Cassa.Common.Random

import Mathlib.Algebra.CharP.Two
import Mathlib.Algebra.Field.ZMod
import Mathlib.Algebra.Polynomial.Div
import Mathlib.Data.Nat.Bitwise
import Mathlib.Data.ZMod.Basic

set_option autoImplicit false

/-! # Binary polynomials

A word of `n` bits as the polynomial over GF(2) with bit `i` as the coefficient of `X ^ i`, and the
shift register that multiplies it by `X` modulo `X ^ n` plus the polynomial of the feedback bits. -/

namespace BitPoly

open Polynomial

/-! ## Words as polynomials -/

/-- The polynomial of the first `n` bits of `b`. -/
noncomputable def bitPoly (n : ℕ) (b : ℕ → Bool) : (ZMod 2)[X] :=
  ∑ i ∈ Finset.range n, if b i then X ^ i else 0

variable {n : ℕ} {b c r : ℕ → Bool}

theorem coeff_bitPoly (n : ℕ) (b : ℕ → Bool) (k : ℕ) :
    (bitPoly n b).coeff k = if k < n ∧ b k = true then 1 else 0 := by
  have hcoeff (i : ℕ) : (if b i then (X : (ZMod 2)[X]) ^ i else 0).coeff k
      = if i = k then (if b k then 1 else 0) else 0 := by
    by_cases hik : i = k
    · subst hik
      cases hb : b i <;> simp
    · cases hb : b i <;> simp [coeff_X_pow, hik, Ne.symm hik]
  rw [bitPoly, finsetSum_coeff, Finset.sum_congr rfl fun i _ => hcoeff i, Finset.sum_ite_eq']
  by_cases hk : k < n <;> simp [hk]

/-- A word is determined by its polynomial. -/
theorem bitPoly_inj (h : bitPoly n b = bitPoly n c) {i : ℕ} (hi : i < n) : b i = c i := by
  have hcoeff := congrArg (fun p => coeff p i) h
  simp only [coeff_bitPoly, hi, true_and] at hcoeff
  cases hb : b i <;> cases hc : c i <;> simp [hb, hc] at hcoeff ⊢

theorem bitPoly_congr (h : ∀ i < n, b i = c i) : bitPoly n b = bitPoly n c :=
  Finset.sum_congr rfl fun i hi => by rw [h i (Finset.mem_range.mp hi)]

theorem degree_bitPoly_lt (n : ℕ) (b : ℕ → Bool) : (bitPoly n b).degree < n := by
  rw [degree_lt_iff_coeff_zero]
  intro k hk
  rw [coeff_bitPoly, if_neg (by omega)]

/-! ## The shift register -/

/-- Shift up by one bit; a bit that falls out at the top is fed back into the bits of `r`. -/
def mulX (n : ℕ) (r b : ℕ → Bool) (i : ℕ) : Bool :=
  xor (decide (i ≠ 0) && b (i - 1)) (b (n - 1) && r i)

/-- The modulus of the feedback bits. -/
noncomputable def modulus (n : ℕ) (r : ℕ → Bool) : (ZMod 2)[X] := X ^ n + bitPoly n r

theorem modulus_monic (n : ℕ) (r : ℕ → Bool) : (modulus n r).Monic :=
  monic_X_pow_add (degree_bitPoly_lt n r)

theorem degree_modulus (n : ℕ) (r : ℕ → Bool) : (modulus n r).degree = n := by
  have hlt : (bitPoly n r).degree < ((X : (ZMod 2)[X]) ^ n).degree := by
    rw [degree_X_pow]
    exact degree_bitPoly_lt n r
  rw [modulus, degree_add_eq_left_of_degree_lt hlt, degree_X_pow]

/-- The product with `X` is the shifted word, and the modulus where a bit falls out. -/
theorem bitPoly_mul_X (hn : 0 < n) (r b : ℕ → Bool) :
    bitPoly n b * X = bitPoly n (mulX n r b) + if b (n - 1) then modulus n r else 0 := by
  have htwo : (1 : ZMod 2) + 1 = 0 := by decide
  ext k
  cases k with
  | zero =>
      rw [coeff_mul_X_zero, coeff_add, coeff_bitPoly]
      cases htop : b (n - 1) <;> cases hr : r 0 <;>
        simp [mulX, htop, hr, hn, hn.ne, modulus, coeff_bitPoly, coeff_X_pow, htwo]
  | succ k =>
      rw [coeff_mul_X, coeff_add, coeff_bitPoly, coeff_bitPoly]
      rcases Nat.lt_trichotomy (k + 1) n with hlt | heq | hgt
      · have hk : k < n := by omega
        cases htop : b (n - 1) <;> cases hr : r (k + 1) <;> cases hb : b k <;>
          simp [mulX, htop, hr, hb, hlt, hk, hlt.ne, modulus, coeff_bitPoly, coeff_X_pow, htwo]
      · have hk : n - 1 = k := by omega
        have hlt : k < n := by omega
        rw [hk]
        cases b k <;> simp [heq, hlt, modulus, coeff_bitPoly]
      · have hk : ¬ k < n := by omega
        have hk' : ¬ k + 1 < n := by omega
        cases htop : b (n - 1) <;>
          simp [hk, hk', hgt.ne', modulus, coeff_bitPoly, coeff_X_pow]

/-- **One turn of the register multiplies by `X`.** -/
theorem bitPoly_mulX (hn : 0 < n) (r b : ℕ → Bool) :
    bitPoly n (mulX n r b) = bitPoly n b * X %ₘ modulus n r := by
  have hmonic := modulus_monic n r
  have hself : bitPoly n (mulX n r b) %ₘ modulus n r = bitPoly n (mulX n r b) := by
    rw [modByMonic_eq_self_iff hmonic, degree_modulus]
    exact degree_bitPoly_lt n _
  have hfed : (if b (n - 1) then modulus n r else 0) %ₘ modulus n r = 0 := by
    split
    · exact modByMonic_self hmonic
    · exact zero_modByMonic _
  rw [bitPoly_mul_X hn r b, add_modByMonic, hself, hfed, add_zero]

/-- `j` turns multiply by `X ^ j`. -/
theorem bitPoly_iterate_mulX (hn : 0 < n) (r b : ℕ → Bool) (j : ℕ) :
    bitPoly n ((mulX n r)^[j] b) = bitPoly n b * X ^ j %ₘ modulus n r := by
  have hmonic := modulus_monic n r
  induction j with
  | zero =>
      rw [Function.iterate_zero, id_eq, pow_zero, mul_one, eq_comm, modByMonic_eq_self_iff hmonic,
        degree_modulus]
      exact degree_bitPoly_lt n b
  | succ j ih =>
      rw [Function.iterate_succ_apply', bitPoly_mulX hn, ih, pow_succ, ← mul_assoc]
      refine modByMonic_eq_of_dvd_sub hmonic ?_
      rw [← sub_mul]
      exact dvd_mul_of_dvd_left (dvd_modByMonic_sub _ _) X

end BitPoly

import OpenExt4.Crypto.Xts
import OpenExt4.Lib.BitPoly

set_option autoImplicit false

/-! # The tweaks of a sector

A block read as a little-endian number is an element of GF(2^128), with bit `i` as the coefficient
of `X ^ i`, and `gf_mul_alpha` multiplies it by `X`. -/

namespace Luks

open Bytes BitPoly Polynomial

/-! ## Blocks as polynomials -/

/-- The polynomial of a block. -/
noncomputable def blockPoly (t : Block) : (ZMod 2)[X] := bitPoly 128 (getLE 16 t 0).testBit

/-- `X ^ 128 + X ^ 7 + X ^ 2 + X + 1`. -/
noncomputable def xtsModulus : (ZMod 2)[X] := X ^ 128 + (X ^ 7 + X ^ 2 + X + 1)

/-- The bits that are fed back. -/
theorem testBit_feedback (i : ℕ) :
    Nat.testBit 0x87 i = decide (i = 7 ∨ i = 2 ∨ i = 1 ∨ i = 0) := by
  have hlow : ∀ k < 8, Nat.testBit 0x87 k = decide (k = 7 ∨ k = 2 ∨ k = 1 ∨ k = 0) := by decide
  by_cases hi : i < 8
  · exact hlow i hi
  · have hpow : 2 ^ 8 ≤ 2 ^ i := Nat.pow_le_pow_right (by decide) (not_lt.mp hi)
    rw [Nat.testBit_lt_two_pow (Nat.lt_of_lt_of_le (by decide) hpow), decide_eq_false (by omega)]

theorem bitPoly_feedback : bitPoly 128 (Nat.testBit 0x87) = X ^ 7 + X ^ 2 + X + 1 := by
  ext k
  simp only [coeff_bitPoly, testBit_feedback, decide_eq_true_iff, coeff_add, coeff_X_pow, coeff_X,
    coeff_one]
  by_cases hk : k = 7 ∨ k = 2 ∨ k = 1 ∨ k = 0
  · rcases hk with rfl | rfl | rfl | rfl <;> simp
  · rw [if_neg fun h => hk h.2]
    simp only [not_or] at hk
    simp [hk, Ne.symm hk.2.2.1]

theorem xtsModulus_eq : xtsModulus = modulus 128 (Nat.testBit 0x87) := by
  unfold xtsModulus modulus
  rw [bitPoly_feedback]

/-- A block is determined by its polynomial. -/
theorem blockPoly_injective : Function.Injective blockPoly := by
  intro a b h
  refine ext_getLE (Nat.eq_of_testBit_eq fun i => ?_)
  by_cases hi : i < 128
  · exact bitPoly_inj h hi
  · have hpow : 256 ^ 16 ≤ 2 ^ i := by
      rw [show 256 ^ 16 = 2 ^ 128 by decide]
      exact Nat.pow_le_pow_right (by decide) (not_lt.mp hi)
    rw [Nat.testBit_lt_two_pow ((getLE_lt 16 a 0).trans_le hpow),
      Nat.testBit_lt_two_pow ((getLE_lt 16 b 0).trans_le hpow)]

/-! ## The multiplication -/

section Words

variable (lo hi : UInt64)

theorem testBit_shl_one {i : ℕ} (hi64 : i < 64) :
    (lo <<< 1).toNat.testBit i = (decide (i ≠ 0) && lo.toNat.testBit (i - 1)) := by
  rw [UInt64.toNat_shiftLeft, Nat.testBit_mod_two_pow, Nat.testBit_shiftLeft]
  cases i <;> simp [hi64]

/-- The bit that falls out at the top. -/
theorem shr_63_ne_zero : hi >>> 63 ≠ 0 ↔ hi.toNat.testBit 63 = true := by
  have hlt := hi.toNat_lt
  rw [Ne, ← UInt64.toNat_inj, UInt64.toNat_shiftRight, Nat.testBit_eq_decide_div_mod_eq,
    decide_eq_true_iff]
  simp only [UInt64.reduceToNat, Nat.reduceMod, Nat.shiftRight_eq_div_pow]
  omega

/-- The lower word, with the feedback of the bit that fell out. -/
theorem testBit_low {i : ℕ} (hi64 : i < 64) :
    (if hi >>> 63 ≠ 0 then lo <<< 1 ^^^ 0x87 else lo <<< 1).toNat.testBit i
      = xor (decide (i ≠ 0) && lo.toNat.testBit (i - 1))
        (hi.toNat.testBit 63 && Nat.testBit 0x87 i) := by
  by_cases hcarry : hi >>> 63 ≠ 0
  · rw [if_pos hcarry, UInt64.toNat_xor, Nat.testBit_xor, testBit_shl_one lo hi64,
      (shr_63_ne_zero hi).mp hcarry, Bool.true_and]
    rfl
  · rw [if_neg hcarry, testBit_shl_one lo hi64,
      Bool.eq_false_of_not_eq_true (mt (shr_63_ne_zero hi).mpr hcarry), Bool.false_and,
      Bool.xor_false]

/-- The upper word takes in the bit that falls out of the lower. -/
theorem testBit_high {i : ℕ} (hi64 : i < 64) :
    (hi <<< 1 ||| lo >>> 63).toNat.testBit i
      = if i = 0 then lo.toNat.testBit 63 else hi.toNat.testBit (i - 1) := by
  have hlt := lo.toNat_lt
  rw [UInt64.toNat_or, Nat.testBit_or, testBit_shl_one hi hi64, UInt64.toNat_shiftRight,
    Nat.testBit_shiftRight]
  simp only [UInt64.reduceToNat, Nat.reduceMod]
  by_cases hzero : i = 0
  · subst hzero
    simp
  · have hout : lo.toNat < 2 ^ (63 + i) := Nat.lt_of_lt_of_le hlt
      (Nat.pow_le_pow_right (by decide) (by omega))
    rw [Nat.testBit_lt_two_pow hout, if_neg hzero]
    simp [hzero]

end Words

theorem toNat_ofNat_getLE (t : Block) (o : ℕ) :
    (UInt64.ofNat (getLE 8 t o)).toNat = getLE 8 t o := by
  rw [UInt64.toNat_ofNat', Nat.mod_eq_of_lt]
  exact (getLE_lt 8 t o).trans_eq (by decide)

/-- A bit of a block is one of its lower or its upper word. -/
theorem testBit_getLE (t : Block) (i : ℕ) : (getLE 16 t 0).testBit i
    = if i < 64 then (getLE 8 t 0).testBit i else (getLE 8 t 8).testBit (i - 64) := by
  have hlt : getLE 8 t 0 < 2 ^ 64 := (getLE_lt 8 t 0).trans_eq (by decide)
  have hsplit : getLE 16 t 0 = 2 ^ 64 * getLE 8 t 8 + getLE 8 t 0 := by
    have hpow : 256 ^ 8 = 2 ^ 64 := by decide
    rw [getLE_add 8 8 t 0, Nat.add_comm, hpow]
  rw [hsplit, Nat.testBit_two_pow_mul_add _ hlt]

/-- **`gf_mul_alpha` is the shift register** with the feedback of the standard. -/
theorem testBit_gfMulAlpha (t : Block) {i : ℕ} (hi : i < 128) :
    (getLE 16 (gfMulAlpha t) 0).testBit i
      = mulX 128 (Nat.testBit 0x87) (getLE 16 t 0).testBit i := by
  have hword (v : UInt64) : v.toNat % 256 ^ 8 = v.toNat := Nat.mod_eq_of_lt v.toNat_lt
  have htop : (getLE 16 t 0).testBit (128 - 1) = (getLE 8 t 8).testBit 63 := by
    rw [testBit_getLE, if_neg (by decide)]
  rw [mulX, htop, testBit_getLE, testBit_getLE]
  unfold gfMulAlpha
  dsimp only
  rw [getLE_putLE (by decide), putLE, getLE_patch_of_disjoint (.inl (by decide)),
    getLE_putLE (by decide), hword, hword]
  by_cases hlow : i < 64
  · rw [if_pos hlow, testBit_low _ _ hlow, toNat_ofNat_getLE, toNat_ofNat_getLE,
      if_pos (by omega)]
  · have hback : Nat.testBit 0x87 i = false := by
      rw [testBit_feedback, decide_eq_false (by omega)]
    rw [if_neg hlow, testBit_high _ _ (by omega), toNat_ofNat_getLE, toNat_ofNat_getLE, hback,
      Bool.and_false, Bool.xor_false, decide_eq_true (by omega), Bool.true_and]
    by_cases hzero : i - 64 = 0
    · obtain rfl : i = 64 := by omega
      rfl
    · rw [if_neg hzero, if_neg (by omega)]
      congr 1

/-- The tweak of block `j` is the first one times `X ^ j`. -/
theorem blockPoly_tweakAt (t : Block) (j : ℕ) :
    blockPoly (tweakAt t j) = blockPoly t * X ^ j %ₘ xtsModulus := by
  have hbits (j : ℕ) : ∀ i < 128, (getLE 16 (tweakAt t j) 0).testBit i
      = ((mulX 128 (Nat.testBit 0x87))^[j] (getLE 16 t 0).testBit) i := by
    induction j with
    | zero => intro i _; rfl
    | succ j ih =>
        intro i hi
        rw [tweakAt, Function.iterate_succ_apply', testBit_gfMulAlpha _ hi,
          Function.iterate_succ_apply', mulX, mulX, ← ih (i - 1) (by omega),
          ← ih (128 - 1) (by decide)]
        rfl
  rw [blockPoly, bitPoly_congr (hbits j), bitPoly_iterate_mulX (by decide), ← xtsModulus_eq]
  rfl

/-! ## Sectors -/

/-- The sector number in the first block is a little-endian number of 128 bits. -/
theorem getLE_aesXtsPlain64Tweak {sector : ℕ} (h : sector < 2 ^ 64) :
    getLE 16 (aesXtsPlain64Tweak sector) 0 = sector := by
  have hlow : getLE 8 (aesXtsPlain64Tweak sector) 0 = sector := by
    rw [aesXtsPlain64Tweak, getLE_putLE (by decide), Nat.mod_eq_of_lt (h.trans_eq (by decide))]
  have hhigh : getLE 8 (aesXtsPlain64Tweak sector) 8 = 0 := by
    rw [aesXtsPlain64Tweak, putLE, getLE_patch_of_disjoint (.inr (by decide))]
    decide
  rw [getLE_add 8 8, hlow, hhigh, Nat.mul_zero, Nat.add_zero]

/-- **XTS coding is right and invertible.** For every key pair, every sector number and every data
    of whole blocks, block `j` is masked, encrypted and masked with the one block that is the
    encrypted little-endian sector number times `X ^ j`, and decryption with the same number gives
    the data back. -/
theorem aesXtsCryptSector_invertible (aes : Aes) (k : XtsKey) {sector len : ℕ} (p : ℕ → UInt8)
    (hsector : sector < 2 ^ 64) (hpos : 0 < len) (hlen : len % 16 = 0) :
    getLE 16 (aesXtsPlain64Tweak sector) 0 = sector ∧
      ∃ c, aesXtsCryptSector aes k (fun _ => false) true (aesXtsPlain64Tweak sector) p len = .ok c ∧
        (∀ j < len / 16, ∃ t, (∀ t', blockPoly t' = blockPoly (aes k.tweakKey
              (aesXtsPlain64Tweak sector)) * X ^ j %ₘ xtsModulus ↔ t' = t) ∧
          blockAt c j = maskBlock t (aes k.dataKey (maskBlock t (blockAt p j)))) ∧
        ∃ p', aesXtsCryptSector aes k (fun _ => false) false (aesXtsPlain64Tweak sector) c len
            = .ok p' ∧ ∀ x < len, p' x = p x := by
  refine ⟨getLE_aesXtsPlain64Tweak hsector, ?_⟩
  have hruns (encrypt : Bool) (buf : ℕ → UInt8) : ∃ out, aesXtsCryptSector aes k (fun _ => false)
      encrypt (aesXtsPlain64Tweak sector) buf len = .ok out :=
    aesXtsCryptSector_clean hpos.ne' hlen fun _ => rfl
  obtain ⟨c, hc⟩ := hruns true p
  obtain ⟨p', hp'⟩ := hruns false c
  have hcipher := aesXtsCryptSector_ok hc
  rw [if_pos rfl] at hcipher
  generalize hT : aes k.tweakKey (aesXtsPlain64Tweak sector) = T at hcipher ⊢
  refine ⟨c, hc, fun j hj => ⟨tweakAt T j, fun t' => ?_, ?_⟩, p', hp', fun x hx => ?_⟩
  · rw [← blockPoly_tweakAt]
    exact blockPoly_injective.eq_iff
  · have hblock : blockAt c j = blockAt (xts (aes k.dataKey) T p) j := by
      funext ⟨i, hi⟩
      exact hcipher (j * 16 + i) (by omega)
    rw [hblock, blockAt_xts]
    rfl
  · rw [aesXtsCryptSector_ok hp' x hx, if_neg Bool.false_ne_true, hT,
      xts_local hlen _ _ hcipher x hx, xts_symm_xts]

/-- Two blocks, with the cipher that changes nothing. -/
theorem aesXtsCryptSector_invertible_two : ∃ c p',
    aesXtsCryptSector (fun _ => Equiv.refl _) ⟨[], []⟩ (fun _ => false) true (aesXtsPlain64Tweak 5)
      (fun _ => 7) 32 = .ok c ∧
    aesXtsCryptSector (fun _ => Equiv.refl _) ⟨[], []⟩ (fun _ => false) false (aesXtsPlain64Tweak 5)
      c 32 = .ok p' ∧ p' 31 = 7 := by
  obtain ⟨-, c, hc, -, p', hp', hsame⟩ := aesXtsCryptSector_invertible (fun _ => Equiv.refl _)
    ⟨[], []⟩ (fun _ => 7) (show 5 < 2 ^ 64 by decide) (show 0 < 32 by decide) (by decide)
  exact ⟨c, p', hc, hp', hsame 31 (by decide)⟩

end Luks

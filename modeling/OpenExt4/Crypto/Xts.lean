import OpenExt4.Crypto.Medium
import OpenExt4.Lib.Sectors
import Mathlib.Logic.Equiv.Basic

set_option autoImplicit false

/-! # AES in XTS mode

`aes_xts_crypt_sector` masks a sector with a running tweak, puts it through AES block by block, and
masks it again. AES itself is a parameter: a permutation of the blocks of 16 bytes for each key. -/

namespace Luks

open Bytes

/-! ## The source -/

/-- An AES block. -/
abbrev Block : Type := Buf 16

/-- AES: for each key, a permutation of the blocks. -/
abbrev Aes : Type := List UInt8 → Equiv.Perm Block

/-- The two halves of a master key. -/
structure XtsKey where
  dataKey : List UInt8
  tweakKey : List UInt8

/-- `aes_xts_key_create`, when its memory and its cryptors are there. -/
def aesXtsKeyCreate (key : List UInt8) : Option XtsKey :=
  if key.length ≠ 32 ∧ key.length ≠ 64 then none
  else
    let halfLen := key.length / 2
    some { dataKey := key.take halfLen, tweakKey := (key.drop halfLen).take halfLen }

/-- Advance the tweak: multiply by the primitive element of GF(2^128). -/
def gfMulAlpha (t : Block) : Block :=
  let lo := UInt64.ofNat (getLE 8 t 0)
  let hi := UInt64.ofNat (getLE 8 t 8)
  let carry := hi >>> 63
  let hi := (hi <<< 1) ||| (lo >>> 63)
  let lo := lo <<< 1
  let lo := if carry ≠ 0 then lo ^^^ 0x87 else lo
  putLE 8 (putLE 8 t 0 lo.toNat) 8 hi.toNat

/-- XOR one 16-byte block into the buffer at `off`. -/
def xorBlock (buf : ℕ → UInt8) (off : ℕ) (src : Block) : ℕ → UInt8 :=
  fun x => if off ≤ x ∧ x < off + 16 then buf x ^^^ get8 src (x - off) else buf x

/-- The loop that masks `count` blocks from `off` on with the running tweak `t`. -/
def maskBlocks : ℕ → Block → ℕ → (ℕ → UInt8) → ℕ → UInt8
  | 0, _, _, buf => buf
  | count + 1, t, off, buf => maskBlocks count (gfMulAlpha t) (off + 16) (xorBlock buf off t)

/-- Block `j` of a buffer. -/
def blockAt (buf : ℕ → UInt8) (j : ℕ) : Block := fun i => buf (j * 16 + i)

/-- `aes_ecb_run` over the first `len` bytes, in place. -/
def aesEcbRun (cipher : Block → Block) (buf : ℕ → UInt8) (len : ℕ) : ℕ → UInt8 :=
  fun x => if x < len then get8 (cipher (blockAt buf (x / 16))) (x % 16) else buf x

/-- The sector number as a little-endian 128-bit integer. -/
def aesXtsPlain64Tweak (sector : ℕ) : Block := putLE 8 (zeros 16) 0 sector

/-- `aes_xts_crypt_sector` on the first `len` bytes of `buf`; `ecb` says which of its two calls of
    the block cipher fail, the one for the tweak (`false`) and the one for the data (`true`). -/
def aesXtsCryptSector (aes : Aes) (k : XtsKey) (ecb : Bool → Bool) (encrypt : Bool) (tweak : Block)
    (buf : ℕ → UInt8) (len : ℕ) : Except Errno (ℕ → UInt8) :=
  if len = 0 ∨ len % 16 ≠ 0 then .error .EINVAL
  else if ecb false then .error Errno.EIO
  else
    -- encryption, in both directions
    let t := aes k.tweakKey tweak
    let masked := maskBlocks (len / 16) t 0 buf
    if ecb true then .error Errno.EIO
    else
      let cipher := if encrypt then aes k.dataKey else (aes k.dataKey).symm
      .ok (maskBlocks (len / 16) t 0 (aesEcbRun cipher masked len))

/-! ## A sector as blocks -/

/-- The tweak of block `j`. -/
def tweakAt (t : Block) (j : ℕ) : Block := gfMulAlpha^[j] t

/-- XOR of two blocks. -/
def maskBlock (t b : Block) : Block := fun i => b i ^^^ t i

theorem maskBlock_involutive (t : Block) : Function.Involutive (maskBlock t) := by
  intro b
  funext i
  simp [maskBlock, UInt8.xor_assoc]

/-- XOR, encrypt, XOR: the permutation that XTS applies to a block. -/
def xexBlock (aes : Equiv.Perm Block) (t : Block) : Equiv.Perm Block :=
  let mask := (maskBlock_involutive t).toPerm
  mask.trans (aes.trans mask)

theorem maskBlocks_apply (count : ℕ) (t : Block) (j : ℕ) (buf : ℕ → UInt8) (x : ℕ) :
    maskBlocks count t (j * 16) buf x = if j * 16 ≤ x ∧ x < (j + count) * 16
      then buf x ^^^ get8 (tweakAt t (x / 16 - j)) (x % 16) else buf x := by
  induction count generalizing t j buf with
  | zero => rw [maskBlocks, if_neg (by omega)]
  | succ count ih =>
      rw [maskBlocks, ← Nat.succ_mul, ih]
      by_cases hhere : j * 16 ≤ x ∧ x < j * 16 + 16
      · have hdiv : x / 16 - j = 0 := by omega
        have hmod : x - j * 16 = x % 16 := by omega
        rw [if_neg (by omega), if_pos (by omega), xorBlock, if_pos hhere, hdiv, hmod]
        rfl
      · by_cases hin : j * 16 ≤ x ∧ x < (j + (count + 1)) * 16
        · have hstep : x / 16 - j = (x / 16 - (j + 1)) + 1 := by omega
          rw [if_pos (by omega), if_pos hin, xorBlock, if_neg hhere, hstep]
          rfl
        · rw [if_neg (by omega), if_neg hin, xorBlock, if_neg hhere]

/-- Masking a buffer of whole blocks masks each of its blocks. -/
theorem blockAt_maskBlocks {t : Block} {buf : ℕ → UInt8} {len j : ℕ} (hj : j < len / 16) :
    blockAt (maskBlocks (len / 16) t 0 buf) j = maskBlock (tweakAt t j) (blockAt buf j) := by
  funext ⟨i, hi⟩
  have happly := maskBlocks_apply (len / 16) t 0 buf (j * 16 + i)
  rw [Nat.zero_mul, if_pos (by omega)] at happly
  have hdiv : (j * 16 + i) / 16 - 0 = j := by omega
  have hmod : (j * 16 + i) % 16 = i := by omega
  rw [hdiv, hmod] at happly
  simpa [blockAt, maskBlock, get8, hi] using happly

/-- What XTS does to a sector: each block through its own permutation. -/
def xts (aes : Equiv.Perm Block) (t : Block) (p : ℕ → UInt8) : ℕ → UInt8 :=
  fun x => get8 (xexBlock aes (tweakAt t (x / 16)) (blockAt p (x / 16))) (x % 16)

theorem xexBlock_symm (aes : Equiv.Perm Block) (t : Block) :
    (xexBlock aes t).symm = xexBlock aes.symm t := rfl

theorem blockAt_xts (aes : Equiv.Perm Block) (t : Block) (p : ℕ → UInt8) (j : ℕ) :
    blockAt (xts aes t p) j = xexBlock aes (tweakAt t j) (blockAt p j) := by
  funext ⟨i, hi⟩
  have hdiv : (j * 16 + i) / 16 = j := by omega
  have hmod : (j * 16 + i) % 16 = i := by omega
  simp [blockAt, xts, get8, hdiv, hmod, hi]

/-- A byte of a buffer is a byte of its block. -/
theorem get8_blockAt (buf : ℕ → UInt8) (x : ℕ) : get8 (blockAt buf (x / 16)) (x % 16) = buf x := by
  have hmod : x % 16 < 16 := Nat.mod_lt _ (by decide)
  rw [get8, dif_pos hmod, blockAt]
  exact congrArg buf (Nat.div_add_mod' x 16)

/-- Decryption undoes encryption. -/
theorem xts_symm_xts (aes : Equiv.Perm Block) (t : Block) (p : ℕ → UInt8) :
    xts aes.symm t (xts aes t p) = p := by
  funext x
  rw [xts, blockAt_xts, ← xexBlock_symm, Equiv.symm_apply_apply, get8_blockAt]

/-- XTS does not look past the sector. -/
theorem xts_local {n : ℕ} (hn : n % 16 = 0) (aes : Equiv.Perm Block) (t : Block)
    {p q : ℕ → UInt8} (h : AgreeTo n p q) : AgreeTo n (xts aes t p) (xts aes t q) := by
  intro x hx
  have hblock : blockAt p (x / 16) = blockAt q (x / 16) := by
    funext ⟨i, hi⟩
    exact h _ (by show x / 16 * 16 + i < n; omega)
  rw [xts, xts, hblock]

/-- **What `aes_xts_crypt_sector` computes** when neither of its calls of the cipher fails. -/
theorem aesXtsCryptSector_ok {aes : Aes} {k : XtsKey} {ecb : Bool → Bool} {encrypt : Bool}
    {tweak : Block} {buf out : ℕ → UInt8} {len : ℕ}
    (h : aesXtsCryptSector aes k ecb encrypt tweak buf len = .ok out) (x : ℕ) (hx : x < len) :
    out x = xts (if encrypt then aes k.dataKey else (aes k.dataKey).symm) (aes k.tweakKey tweak)
      buf x := by
  unfold aesXtsCryptSector at h
  by_cases hlen : len = 0 ∨ len % 16 ≠ 0
  · rw [if_pos hlen] at h
    cases h
  rw [if_neg hlen] at h
  cases htweak : ecb false with
  | true => simp [htweak] at h
  | false =>
      cases hdata : ecb true with
      | true => simp [htweak, hdata] at h
      | false =>
          simp only [htweak, hdata, Bool.false_eq_true, if_false] at h
          cases h
          generalize aes k.tweakKey tweak = t
          generalize (if encrypt = true then aes k.dataKey else (aes k.dataKey).symm) = cipher
          have hj : x / 16 < len / 16 := by omega
          have hmask := maskBlocks_apply (len / 16) t 0
            (aesEcbRun cipher (maskBlocks (len / 16) t 0 buf) len) x
          rw [Nat.zero_mul, if_pos (by omega), Nat.sub_zero] at hmask
          rw [hmask, aesEcbRun, if_pos hx, blockAt_maskBlocks hj, xts]
          have hmod : x % 16 < 16 := Nat.mod_lt _ (by decide)
          have hxex : xexBlock cipher (tweakAt t (x / 16)) (blockAt buf (x / 16))
              = maskBlock (tweakAt t (x / 16))
                (cipher (maskBlock (tweakAt t (x / 16)) (blockAt buf (x / 16)))) := rfl
          rw [hxex]
          simp [get8, hmod, maskBlock]

/-- It fails only when one of these calls does. -/
theorem aesXtsCryptSector_clean {aes : Aes} {k : XtsKey} {ecb : Bool → Bool} {encrypt : Bool}
    {tweak : Block} {buf : ℕ → UInt8} {len : ℕ} (hpos : len ≠ 0) (hlen : len % 16 = 0)
    (hecb : ∀ phase, ecb phase = false) :
    ∃ out, aesXtsCryptSector aes k ecb encrypt tweak buf len = .ok out := by
  have hfit : ¬ (len = 0 ∨ len % 16 ≠ 0) := by simp [hpos, hlen]
  simp [aesXtsCryptSector, hfit, hecb]

/-- A sector number counts modulo `2 ^ 64`. -/
theorem aesXtsPlain64Tweak_mod (sector : ℕ) :
    aesXtsPlain64Tweak (sector % 2 ^ 64) = aesXtsPlain64Tweak sector := by
  refine ext_get8 fun i _ => ?_
  simp only [aesXtsPlain64Tweak, putLE, get8_patch]
  split
  · next h =>
      obtain ⟨r, hr⟩ : ∃ r, 8 = i - 0 + (r + 1) := ⟨8 - i - 1, by omega⟩
      have hpow : 2 ^ 64 = 256 ^ (i - 0) * 256 ^ (r + 1) := by
        rw [← Nat.pow_add, ← hr]
        decide
      rw [hpow, Nat.mod_mul_right_div_self]
      apply UInt8.toNat_inj.mp
      simp only [UInt8.toNat_ofNat']
      exact Nat.mod_mod_of_dvd _ (Dvd.intro_left _ (Nat.pow_succ 256 r).symm)
  · rfl

/-- The cipher of a payload: sector `i` under the tweak `i * (sector size / 512)`. -/
def xtsSectors (aes : Aes) (k : XtsKey) (sectorSize : ℕ)
    (h : sectorSize ≠ 0 ∧ sectorSize % 512 = 0) : SectorCipher UInt8 sectorSize where
  enc i := xts (aes k.dataKey) (aes k.tweakKey (aesXtsPlain64Tweak (i * (sectorSize / 512))))
  dec i := xts (aes k.dataKey).symm
    (aes k.tweakKey (aesXtsPlain64Tweak (i * (sectorSize / 512))))
  pos := Nat.pos_of_ne_zero h.1
  dec_enc _ _ := xts_symm_xts _ _ _
  enc_local _ _ _ := xts_local (by omega) _ _
  dec_local _ _ _ := xts_local (by omega) _ _

end Luks

import Mathlib.Algebra.Order.Group.Finset
import Mathlib.Data.Nat.Bitwise
import Mathlib.Order.Interval.Finset.Nat
import OpenExt4.Lib.Bytes

set_option autoImplicit false

/-! # Bitmaps

`ext4_bitmap.c` on a bitmap block: single bits, freeing a range, and the search for the first clear
bit, each with its walk by bits, words and bytes. Above the walks everything is said of the bits
(`bit`) and of the number of clear ones (`clearBits`). -/

namespace Ext4

open Bytes

variable {n : ℕ}

/-! ## Single bits -/

/-- `ext4_bmap_is_bit_set`. -/
def bit (bmap : Buf n) (i : ℕ) : Bool := (get8 bmap (i / 8)).toNat.testBit (i % 8)

/-- `ext4_bmap_bit_set`. -/
def bmapBitSet (bmap : Buf n) (i : ℕ) : Buf n :=
  patch bmap (i / 8) 1 fun _ => UInt8.ofNat ((get8 bmap (i / 8)).toNat ||| 2 ^ (i % 8))

/-- `ext4_bmap_bit_clr`. -/
def bmapBitClr (bmap : Buf n) (i : ℕ) : Buf n :=
  patch bmap (i / 8) 1 fun _ => UInt8.ofNat ((get8 bmap (i / 8)).toNat &&& (255 - 2 ^ (i % 8)))

/-- Bits of a byte are the bits of the number it is made from. -/
theorem testBit_ofNat {v k : ℕ} (hk : k < 8) : (UInt8.ofNat v).toNat.testBit k = v.testBit k := by
  rw [UInt8.toNat_ofNat', Nat.testBit_mod_two_pow, decide_eq_true hk, Bool.true_and]

theorem testBit_mask : ∀ k < 8, ∀ j < 8, (255 - 2 ^ k).testBit j = !decide (j = k) := by decide

/-- A byte that is not patched has the same bits. -/
theorem bit_patch_of_ne {bmap : Buf n} {o len : ℕ} {f : ℕ → UInt8} {j : ℕ}
    (h : j / 8 < o ∨ o + len ≤ j / 8) : bit (patch bmap o len f) j = bit bmap j := by
  unfold bit
  rw [get8_patch_of_disjoint h]

theorem bit_bmapBitSet {bmap : Buf n} {i : ℕ} (hi : i < 8 * n) (j : ℕ) :
    bit (bmapBitSet bmap i) j = (decide (j = i) || bit bmap j) := by
  unfold bmapBitSet
  by_cases hbyte : j / 8 = i / 8
  · unfold bit
    rw [hbyte, get8_patch_of_mem (by omega) le_rfl (by omega), testBit_ofNat (by omega),
      Nat.testBit_or, Nat.testBit_two_pow, Bool.or_comm]
    congr 1
    exact decide_eq_decide.mpr (by omega)
  · rw [bit_patch_of_ne (by omega), decide_eq_false (by rintro rfl; exact hbyte rfl),
      Bool.false_or]

theorem bit_bmapBitClr {bmap : Buf n} {i : ℕ} (hi : i < 8 * n) (j : ℕ) :
    bit (bmapBitClr bmap i) j = (!decide (j = i) && bit bmap j) := by
  unfold bmapBitClr
  by_cases hbyte : j / 8 = i / 8
  · have hj : j % 8 < 8 := by omega
    unfold bit
    rw [hbyte, get8_patch_of_mem (by omega) le_rfl (by omega), testBit_ofNat hj, Nat.testBit_and,
      testBit_mask _ (by omega) _ hj, Bool.and_comm]
    congr 2
    exact decide_eq_decide.mpr (by omega)
  · rw [bit_patch_of_ne (by omega), decide_eq_false (by rintro rfl; exact hbyte rfl)]
    rfl

/-- Zeroed bytes have no bit set. -/
theorem bit_patch_zero {bmap : Buf n} {o len : ℕ} (hn : o + len ≤ n) (j : ℕ) :
    bit (patch bmap o len fun _ => 0) j
      = (bit bmap j && !decide (8 * o ≤ j ∧ j < 8 * (o + len))) := by
  by_cases hin : o ≤ j / 8 ∧ j / 8 < o + len
  · rw [decide_eq_true (by omega : 8 * o ≤ j ∧ j < 8 * (o + len))]
    unfold bit
    rw [get8_patch_of_mem (by omega) hin.1 hin.2]
    simp
  · rw [bit_patch_of_ne (by omega), decide_eq_false (by omega), Bool.not_false, Bool.and_true]

/-! ## Freeing a range -/

/-- Clear `cnt` bits one by one. -/
def clrBits (bmap : Buf n) : ℕ → ℕ → Buf n
  | _, 0 => bmap
  | i, cnt + 1 => clrBits (bmapBitClr bmap i) (i + 1) cnt

/-- A walk in progress: the bitmap, the byte reached and the bits left. -/
structure Walk (n : ℕ) where
  bmap : Buf n
  byte : ℕ
  bcnt : ℕ

/-- Clear units of `w` bytes while there are bits for one. -/
def clrUnits (w : ℕ) : ℕ → Walk n → Walk n
  | 0, st => st
  | fuel + 1, st =>
      if 8 * w ≤ st.bcnt then
        clrUnits w fuel ⟨patch st.bmap st.byte w fun _ => 0, st.byte + w, st.bcnt - 8 * w⟩
      else st

/-- The loops over words, half-words and bytes, with or without the access by words
    (`CONFIG_UNALIGNED_ACCESS`). -/
def clrWalk (unaligned : Bool) (st : Walk n) : Walk n :=
  let st := if unaligned then clrUnits 4 st.bcnt st else st
  let st := if unaligned then clrUnits 2 st.bcnt st else st
  clrUnits 1 st.bcnt st

/-- `ext4_bmap_bits_free`. -/
def bmapBitsFree (unaligned : Bool) (bmap : Buf n) (sbit bcnt : ℕ) : Buf n :=
  let head := min bcnt ((8 - sbit % 8) % 8)
  let st := clrWalk unaligned ⟨clrBits bmap sbit head, (sbit + head) / 8, bcnt - head⟩
  clrBits st.bmap (8 * st.byte) st.bcnt

theorem bit_clrBits {bmap : Buf n} {i cnt : ℕ} (h : i + cnt ≤ 8 * n) (j : ℕ) :
    bit (clrBits bmap i cnt) j = (bit bmap j && !decide (i ≤ j ∧ j < i + cnt)) := by
  induction cnt generalizing bmap i with
  | zero =>
      have hout : ¬ (i ≤ j ∧ j < i + 0) := by omega
      rw [clrBits, decide_eq_false hout, Bool.not_false, Bool.and_true]
  | succ cnt ih =>
      rw [clrBits, ih (by omega), bit_bmapBitClr (by omega)]
      by_cases hji : j = i
      · simp [hji]
      · have hiff : (i + 1 ≤ j ∧ j < i + 1 + cnt) ↔ (i ≤ j ∧ j < i + (cnt + 1)) := by omega
        rw [decide_eq_false hji, Bool.not_false, Bool.true_and, decide_eq_decide.mpr hiff]

/-- The walk went from `st` to `st'` and cleared the bits it passed. -/
structure Walk.Cleared (st st' : Walk n) : Prop where
  total : 8 * st'.byte + st'.bcnt = 8 * st.byte + st.bcnt
  forward : st.byte ≤ st'.byte
  bits : ∀ j, bit st'.bmap j = (bit st.bmap j && !decide (8 * st.byte ≤ j ∧ j < 8 * st'.byte))

theorem Walk.Cleared.refl (st : Walk n) : st.Cleared st := by
  refine ⟨rfl, le_rfl, fun j => ?_⟩
  have hout : ¬ (8 * st.byte ≤ j ∧ j < 8 * st.byte) := by omega
  rw [decide_eq_false hout, Bool.not_false, Bool.and_true]

theorem Walk.Cleared.trans {st st' st'' : Walk n} (h : st.Cleared st') (h' : st'.Cleared st'') :
    st.Cleared st'' := by
  have hfwd := h.forward
  have hfwd' := h'.forward
  refine ⟨h'.total.trans h.total, hfwd.trans hfwd', fun j => ?_⟩
  rw [h'.bits, h.bits, Bool.and_assoc, ← Bool.not_or, ← Bool.decide_or]
  congr 2
  exact decide_eq_decide.mpr (by omega)

theorem clrUnits_cleared {w fuel : ℕ} {st : Walk n} (h : 8 * st.byte + st.bcnt ≤ 8 * n) :
    st.Cleared (clrUnits w fuel st) := by
  induction fuel generalizing st with
  | zero => exact Walk.Cleared.refl st
  | succ fuel ih =>
      rw [clrUnits]
      split
      · next hle =>
          have hunit : st.Cleared
              ⟨patch st.bmap st.byte w fun _ => 0, st.byte + w, st.bcnt - 8 * w⟩ :=
            ⟨by dsimp only; omega, by dsimp only; omega, fun j => bit_patch_zero (by omega) j⟩
          exact hunit.trans (ih (by dsimp only; omega))
      · exact Walk.Cleared.refl st

theorem clrWalk_cleared {unaligned : Bool} {st : Walk n} (h : 8 * st.byte + st.bcnt ≤ 8 * n) :
    st.Cleared (clrWalk unaligned st) := by
  have hwalk : ∀ (w : ℕ) (st : Walk n), 8 * st.byte + st.bcnt ≤ 8 * n →
      st.Cleared (if unaligned then clrUnits w st.bcnt st else st) := by
    intro w st hst
    split
    · exact clrUnits_cleared hst
    · exact Walk.Cleared.refl st
  have h₁ := hwalk 4 st h
  have h₂ := h₁.trans (hwalk 2 _ (by rw [h₁.total]; exact h))
  exact h₂.trans (clrUnits_cleared (by rw [h₂.total]; exact h))

/-- **Freeing a range clears exactly its bits.** -/
theorem bit_bmapBitsFree {unaligned : Bool} {bmap : Buf n} {sbit bcnt : ℕ}
    (h : sbit + bcnt ≤ 8 * n) (j : ℕ) :
    bit (bmapBitsFree unaligned bmap sbit bcnt) j
      = (bit bmap j && !decide (sbit ≤ j ∧ j < sbit + bcnt)) := by
  unfold bmapBitsFree
  dsimp only
  generalize hhead : min bcnt ((8 - sbit % 8) % 8) = head
  by_cases hdone : bcnt - head = 0
  · -- the range ends before the first byte boundary: nothing is left for the walks
    obtain rfl : head = bcnt := by omega
    simp only [Nat.sub_self, clrWalk, clrUnits, ite_self, clrBits]
    exact bit_clrBits h j
  · have halign : 8 * ((sbit + head) / 8) = sbit + head := by omega
    generalize hst : (⟨clrBits bmap sbit head, (sbit + head) / 8, bcnt - head⟩ : Walk n) = st
    have hstart : 8 * st.byte = sbit + head ∧ st.bcnt = bcnt - head ∧
        st.bmap = clrBits bmap sbit head := by rw [← hst]; exact ⟨halign, rfl, rfl⟩
    have hall : st.Cleared (clrWalk unaligned st) := clrWalk_cleared (by omega)
    have htotal := hall.total
    have hfwd := hall.forward
    rw [bit_clrBits (by omega), hall.bits, hstart.2.2, bit_clrBits (by omega)]
    simp only [Bool.and_assoc, ← Bool.not_or, ← Bool.decide_or]
    congr 2
    exact decide_eq_decide.mpr (by omega)

/-! ## The search for a clear bit -/

/-- The first clear bit of `cnt` bits from `i` on. -/
def scanBits (bmap : Buf n) : ℕ → ℕ → Option ℕ
  | _, 0 => none
  | i, cnt + 1 => if !bit bmap i then some i else scanBits bmap (i + 1) cnt

/-- Are the `w` bytes from `o` on all ones? -/
def unitFull (bmap : Buf n) (o w : ℕ) : Bool := (List.range w).all fun k => get8 bmap
    (o + k) == 0xFF

/-- Pass over full units of `w` bytes: the byte reached and the bits left. -/
def skipUnits (bmap : Buf n) (w : ℕ) : ℕ → ℕ × ℕ → ℕ × ℕ
  | 0, st => st
  | fuel + 1, st =>
      if 8 * w ≤ st.2 then
        if unitFull bmap st.1 w then skipUnits bmap w fuel (st.1 + w, st.2 - 8 * w) else st
      else st

/-- The loop over bytes and the bits of the last one. -/
def scanBytes (bmap : Buf n) : ℕ → ℕ → ℕ → Option ℕ
  | 0, o, cnt => scanBits bmap (8 * o) cnt
  | fuel + 1, o, cnt =>
      if 8 ≤ cnt then
        match (if get8 bmap o ≠ 0xFF then scanBits bmap (8 * o) 8 else none) with
        | some i => some i
        | none => scanBytes bmap fuel (o + 1) (cnt - 8)
      else scanBits bmap (8 * o) cnt

/-- The loops over words and half-words; the second runs only when the first came to its end. -/
def skipWalk (unaligned : Bool) (bmap : Buf n) (st : ℕ × ℕ) : ℕ × ℕ :=
  let st := if unaligned then skipUnits bmap 4 st.2 st else st
  if unaligned ∧ st.2 < 32 then skipUnits bmap 2 st.2 st else st

/-- `ext4_bmap_bit_find_clr`; `none` stands for `ENOSPC`. -/
def bmapBitFindClr (unaligned : Bool) (bmap : Buf n) (sbit ebit : ℕ) : Option ℕ :=
  if ebit ≤ sbit then none
  else
    let bcnt := ebit - sbit
    let head := min bcnt ((8 - sbit % 8) % 8)
    match scanBits bmap sbit head with
    | some i => some i
    | none =>
        let st := skipWalk unaligned bmap ((sbit + head) / 8, bcnt - head)
        scanBytes bmap st.2 st.1 st.2

/-- `res` is the first clear bit of `[s, e)`, if there is one. -/
def FirstClear (bmap : Buf n) (s e : ℕ) (res : Option ℕ) : Prop :=
  match res with
  | some i => s ≤ i ∧ i < e ∧ bit bmap i = false ∧ ∀ j, s ≤ j → j < i → bit bmap j = true
  | none => ∀ j, s ≤ j → j < e → bit bmap j = true

/-- Set bits in front do not change the answer. -/
theorem FirstClear.of_suffix {bmap : Buf n} {s m e : ℕ} {res : Option ℕ} (hsm : s ≤ m)
    (hset : ∀ j, s ≤ j → j < m → bit bmap j = true) (h : FirstClear bmap m e res) :
    FirstClear bmap s e res := by
  cases res with
  | none =>
      intro j hlo hhi
      by_cases hj : j < m
      · exact hset j hlo hj
      · exact h j (by omega) hhi
  | some i =>
      obtain ⟨hmi, hie, hclear, hbefore⟩ := h
      refine ⟨by omega, hie, hclear, fun j hlo hhi => ?_⟩
      by_cases hj : j < m
      · exact hset j hlo hj
      · exact hbefore j (by omega) hhi

/-- The first clear bit of a part is that of the whole, if the part has one. -/
theorem FirstClear.of_prefix {bmap : Buf n} {s m e i : ℕ} (hme : m ≤ e)
    (h : FirstClear bmap s m (some i)) : FirstClear bmap s e (some i) :=
  ⟨h.1, by have := h.2.1; omega, h.2.2.1, h.2.2.2⟩

/-- There is only one first clear bit. -/
theorem FirstClear.unique {bmap : Buf n} {s e : ℕ} {res res' : Option ℕ}
    (h : FirstClear bmap s e res) (h' : FirstClear bmap s e res') : res = res' := by
  cases res with
  | none =>
      cases res' with
      | none => rfl
      | some i =>
          have := h i h'.1 h'.2.1
          rw [h'.2.2.1] at this
          cases this
  | some i =>
      cases res' with
      | none =>
          have := h' i h.1 h.2.1
          rw [h.2.2.1] at this
          cases this
      | some j =>
          rcases Nat.lt_trichotomy i j with hlt | heq | hgt
          · have := h'.2.2.2 i h.1 hlt
            rw [h.2.2.1] at this
            cases this
          · rw [heq]
          · have := h.2.2.2 j h'.1 hgt
            rw [h'.2.2.1] at this
            cases this

theorem scanBits_spec (bmap : Buf n) (i cnt : ℕ) :
    FirstClear bmap i (i + cnt) (scanBits bmap i cnt) := by
  induction cnt generalizing i with
  | zero => intro j hlo hhi; omega
  | succ cnt ih =>
      rw [scanBits]
      split
      · next hclear => exact ⟨le_rfl, by omega, by simpa using hclear, fun j hlo hhi => by omega⟩
      · next hset =>
          have hrest := ih (i + 1)
          rw [show i + 1 + cnt = i + (cnt + 1) by omega] at hrest
          refine hrest.of_suffix (by omega) fun j hlo hhi => ?_
          obtain rfl : j = i := by omega
          simpa using hset

/-- The bits of a byte of ones. -/
theorem bit_of_full {bmap : Buf n} {j : ℕ} (h : get8 bmap (j / 8) = 0xFF) : bit bmap j = true := by
  have hall : ∀ k < 8, (0xFF : UInt8).toNat.testBit k = true := by decide
  unfold bit
  rw [h]
  exact hall _ (by omega)

theorem bit_of_unitFull {bmap : Buf n} {o w j : ℕ} (h : unitFull bmap o w = true)
    (hlo : 8 * o ≤ j) (hhi : j < 8 * (o + w)) : bit bmap j = true := by
  unfold unitFull at h
  rw [List.all_eq_true] at h
  have hbyte := h (j / 8 - o) (List.mem_range.mpr (by omega))
  rw [show o + (j / 8 - o) = j / 8 by omega] at hbyte
  exact bit_of_full (by simpa using hbyte)

/-- The walk went from `st` to `st'` over set bits. -/
structure Skipped (bmap : Buf n) (st st' : ℕ × ℕ) : Prop where
  total : 8 * st'.1 + st'.2 = 8 * st.1 + st.2
  forward : st.1 ≤ st'.1
  bits : ∀ j, 8 * st.1 ≤ j → j < 8 * st'.1 → bit bmap j = true

theorem Skipped.refl (bmap : Buf n) (st : ℕ × ℕ) : Skipped bmap st st :=
  ⟨rfl, le_rfl, fun j hlo hhi => by omega⟩

theorem Skipped.trans {bmap : Buf n} {st st' st'' : ℕ × ℕ} (h : Skipped bmap st st')
    (h' : Skipped bmap st' st'') : Skipped bmap st st'' := by
  refine ⟨h'.total.trans h.total, h.forward.trans h'.forward, fun j hlo hhi => ?_⟩
  by_cases hj : j < 8 * st'.1
  · exact h.bits j hlo hj
  · exact h'.bits j (by omega) hhi

theorem skipUnits_skipped (bmap : Buf n) (w fuel : ℕ) (st : ℕ × ℕ) :
    Skipped bmap st (skipUnits bmap w fuel st) := by
  induction fuel generalizing st with
  | zero => exact Skipped.refl bmap st
  | succ fuel ih =>
      rw [skipUnits]
      split
      · split
        · next hle hfull =>
            have hunit : Skipped bmap st (st.1 + w, st.2 - 8 * w) :=
              ⟨by dsimp only; omega, by dsimp only; omega,
                fun j hlo hhi => bit_of_unitFull hfull hlo hhi⟩
            exact hunit.trans (ih _)
        · exact Skipped.refl bmap st
      · exact Skipped.refl bmap st

theorem skipWalk_skipped (unaligned : Bool) (bmap : Buf n) (st : ℕ × ℕ) :
    Skipped bmap st (skipWalk unaligned bmap st) := by
  have h₁ : Skipped bmap st (if unaligned then skipUnits bmap 4 st.2 st else st) := by
    split
    · exact skipUnits_skipped ..
    · exact Skipped.refl bmap st
  have h₂ : ∀ st : ℕ × ℕ, Skipped bmap st
      (if unaligned ∧ st.2 < 32 then skipUnits bmap 2 st.2 st else st) := by
    intro st
    split
    · exact skipUnits_skipped ..
    · exact Skipped.refl bmap st
  exact h₁.trans (h₂ _)

theorem scanBytes_spec (bmap : Buf n) {fuel cnt : ℕ} (o : ℕ) (hfuel : cnt ≤ fuel) :
    FirstClear bmap (8 * o) (8 * o + cnt) (scanBytes bmap fuel o cnt) := by
  induction fuel generalizing o cnt with
  | zero => exact scanBits_spec bmap _ _
  | succ fuel ih =>
      rw [scanBytes]
      split
      · next hle =>
          have hbyte : FirstClear bmap (8 * o) (8 * o + 8)
              (if get8 bmap o ≠ 0xFF then scanBits bmap (8 * o) 8 else none) := by
            split
            · exact scanBits_spec bmap _ _
            · next hfull =>
                intro j hlo hhi
                refine bit_of_full ?_
                rw [show j / 8 = o by omega]
                exact not_not.mp hfull
          split
          · next i hi =>
              rw [hi] at hbyte
              exact hbyte.of_prefix (by omega)
          · next hnone =>
              rw [hnone] at hbyte
              have hrest := ih (o + 1) (show cnt - 8 ≤ fuel by omega)
              rw [show 8 * (o + 1) + (cnt - 8) = 8 * o + cnt by omega] at hrest
              exact hrest.of_suffix (by omega) fun j hlo hhi => hbyte j hlo (by omega)
      · exact scanBits_spec bmap _ _

/-- **The search finds the first clear bit of its range**, or there is none. -/
theorem bmapBitFindClr_spec (unaligned : Bool) (bmap : Buf n) (sbit ebit : ℕ) :
    FirstClear bmap sbit ebit (bmapBitFindClr unaligned bmap sbit ebit) := by
  unfold bmapBitFindClr
  split
  · intro j hlo hhi
    omega
  · next hlt =>
      dsimp only
      generalize hhead : min (ebit - sbit) ((8 - sbit % 8) % 8) = head
      have hbits := scanBits_spec bmap sbit head
      split
      · next i hi =>
          rw [hi] at hbits
          exact hbits.of_prefix (by omega)
      · next hnone =>
          rw [hnone] at hbits
          by_cases hdone : ebit - sbit - head = 0
          · have hend : FirstClear bmap sbit ebit none := fun j hlo hhi => hbits j hlo (by omega)
            simpa only [hdone, skipWalk, skipUnits, ite_self, scanBytes, scanBits] using hend
          · have halign : 8 * ((sbit + head) / 8) = sbit + head := by omega
            have hall := skipWalk_skipped unaligned bmap ((sbit + head) / 8, ebit - sbit - head)
            generalize skipWalk unaligned bmap ((sbit + head) / 8, ebit - sbit - head) = st
              at hall ⊢
            have htotal := hall.total
            have hfwd := hall.forward
            have hscan := scanBytes_spec bmap st.1 (le_refl st.2)
            rw [show 8 * st.1 + st.2 = ebit by omega] at hscan
            refine hscan.of_suffix (by omega) fun j hlo hhi => ?_
            by_cases hj : j < sbit + head
            · exact hbits j hlo hj
            · exact hall.bits j (by omega) hhi

/-- **The range helpers are exact** with and without the access by words: freeing a range of the
    bitmap clears its bits and no other, and the search finds the lowest clear bit of its range, or
    says that there is none. -/
theorem bmapRange_exact (unaligned : Bool) (bmap : Buf n) (sbit ebit bcnt : ℕ)
    (h : sbit + bcnt ≤ 8 * n) :
    (∀ j, bit (bmapBitsFree unaligned bmap sbit bcnt) j
      = (bit bmap j && !decide (sbit ≤ j ∧ j < sbit + bcnt))) ∧
    (∀ i, bmapBitFindClr unaligned bmap sbit ebit = some i ↔
      sbit ≤ i ∧ i < ebit ∧ bit bmap i = false ∧ ∀ j, sbit ≤ j → j < i → bit bmap j = true) ∧
    (bmapBitFindClr unaligned bmap sbit ebit = none ↔
      ∀ j, sbit ≤ j → j < ebit → bit bmap j = true) := by
  have hfirst := bmapBitFindClr_spec unaligned bmap sbit ebit
  refine ⟨bit_bmapBitsFree h, fun i => ⟨fun hfound => ?_, fun hspec => ?_⟩,
    fun hnone => ?_, fun hset => ?_⟩
  · rw [hfound] at hfirst
    exact hfirst
  · have hres : FirstClear bmap sbit ebit (some i) := hspec
    exact hfirst.unique hres
  · rw [hnone] at hfirst
    exact hfirst
  · have hres : FirstClear bmap sbit ebit none := hset
    exact hfirst.unique hres

/-- A range that begins and ends inside a byte. -/
theorem bmapRange_exact_small :
    bit (bmapBitsFree true (fun _ => 0xff : Buf 2) 3 9) 11 = false ∧
      bmapBitFindClr true (fun _ => 0xff : Buf 2) 3 16 = none := by
  obtain ⟨hfree, -, hnone⟩ := bmapRange_exact true (fun _ => 0xff : Buf 2) 3 16 9 (by decide)
  refine ⟨by rw [hfree]; decide, hnone.mpr ?_⟩
  have hset : ∀ j < 16, bit (fun _ => 0xff : Buf 2) j = true := by decide
  exact fun j _ hj => hset j hj

/-! ## Counting clear bits -/

/-- The number of clear bits below `m`. -/
def clearBits (bmap : Buf n) (m : ℕ) : ℕ :=
    ((Finset.range m).filter fun i => bit bmap i = false).card

theorem clearBits_congr {a b : Buf n} {m : ℕ} (h : ∀ i < m, bit a i = bit b i) :
    clearBits a m = clearBits b m := by
  unfold clearBits
  congr 1
  exact Finset.filter_congr fun i hi => by rw [h i (Finset.mem_range.mp hi)]

theorem clearBits_eq_zero {bmap : Buf n} {m : ℕ} :
    clearBits bmap m = 0 ↔ ∀ i < m, bit bmap i = true := by
  unfold clearBits
  rw [Finset.card_eq_zero, Finset.filter_eq_empty_iff]
  simp

theorem clearBits_le (bmap : Buf n) (m : ℕ) : clearBits bmap m ≤ m := by
  unfold clearBits
  exact (Finset.card_filter_le _ _).trans (Finset.card_range m).le

/-- A range of set bits that is cleared adds its length. -/
theorem clearBits_of_cleared {a b : Buf n} {m s cnt : ℕ} (hm : s + cnt ≤ m)
    (hset : ∀ i, s ≤ i → i < s + cnt → bit a i = true)
    (hb : ∀ i < m, bit b i = (bit a i && !decide (s ≤ i ∧ i < s + cnt))) :
    clearBits b m = clearBits a m + cnt := by
  have hunion : (Finset.range m).filter (fun i => bit b i = false)
      = (Finset.range m).filter (fun i => bit a i = false) ∪ Finset.Ico s (s + cnt) := by
    ext i
    simp only [Finset.mem_filter, Finset.mem_range, Finset.mem_union, Finset.mem_Ico]
    constructor
    · rintro ⟨him, hi⟩
      rw [hb i him] at hi
      by_cases hin : s ≤ i ∧ i < s + cnt
      · exact Or.inr hin
      · left
        simpa [hin, him] using hi
    · rintro (⟨him, hi⟩ | hin)
      · exact ⟨him, by rw [hb i him, hi, Bool.false_and]⟩
      · have him : i < m := by omega
        exact ⟨him, by rw [hb i him, decide_eq_true hin, Bool.not_true, Bool.and_false]⟩
  have hdisjoint : Disjoint ((Finset.range m).filter fun i => bit a i = false)
      (Finset.Ico s (s + cnt)) := by
    rw [Finset.disjoint_left]
    intro i hi hin
    rw [Finset.mem_Ico] at hin
    have hclear := (Finset.mem_filter.mp hi).2
    rw [hset i hin.1 hin.2] at hclear
    cases hclear
  unfold clearBits
  rw [hunion, Finset.card_union_of_disjoint hdisjoint, Nat.card_Ico, Nat.add_sub_cancel_left]

/-- A window that is cleared adds its length at most, and less if one of its bits was clear before
    or is not counted. -/
theorem clearBits_le_of_cleared {a b : Buf n} {m s cnt : ℕ}
    (hb : ∀ i, bit b i = (bit a i && !decide (s ≤ i ∧ i < s + cnt))) :
    clearBits b m ≤ clearBits a m + cnt := by
  have hsub : (Finset.range m).filter (fun i => bit b i = false)
      ⊆ (Finset.range m).filter (fun i => bit a i = false) ∪ Finset.Ico s (s + cnt) := by
    intro i hi
    rw [Finset.mem_filter, hb] at hi
    rw [Finset.mem_union, Finset.mem_filter, Finset.mem_Ico]
    by_cases hin : s ≤ i ∧ i < s + cnt
    · exact Or.inr hin
    · exact Or.inl (by simpa [hin] using hi)
  have hcard := (Finset.card_le_card hsub).trans (Finset.card_union_le _ _)
  rwa [Nat.card_Ico, Nat.add_sub_cancel_left] at hcard

theorem clearBits_lt_of_cleared {a b : Buf n} {m s cnt j : ℕ}
    (hb : ∀ i, bit b i = (bit a i && !decide (s ≤ i ∧ i < s + cnt))) (hj : s ≤ j ∧ j < s + cnt)
    (hlost : m ≤ j ∨ bit a j = false) : clearBits b m < clearBits a m + cnt := by
  have hsub : (Finset.range m).filter (fun i => bit b i = false)
      ⊆ (Finset.range m).filter (fun i => bit a i = false) ∪ (Finset.Ico s (s + cnt)).erase j := by
    intro i hi
    rw [Finset.mem_filter, Finset.mem_range, hb] at hi
    rw [Finset.mem_union, Finset.mem_filter, Finset.mem_erase, Finset.mem_Ico, Finset.mem_range]
    by_cases hin : i ≠ j ∧ s ≤ i ∧ i < s + cnt
    · exact Or.inr hin
    · refine Or.inl ⟨hi.1, ?_⟩
      by_cases hij : i = j
      · subst hij
        exact hlost.resolve_left (by omega)
      · have hout : ¬ (s ≤ i ∧ i < s + cnt) := fun h => hin ⟨hij, h⟩
        simpa [hout] using hi.2
  have hcard := (Finset.card_le_card hsub).trans (Finset.card_union_le _ _)
  rw [Finset.card_erase_of_mem (Finset.mem_Ico.mpr hj), Nat.card_Ico, Nat.add_sub_cancel_left]
    at hcard
  unfold clearBits
  omega

/-- A clear bit that is set takes one away. -/
theorem clearBits_bmapBitSet {bmap : Buf n} {m i : ℕ} (him : i < m) (hin : i < 8 * n)
    (hclear : bit bmap i = false) : clearBits (bmapBitSet bmap i) m + 1 = clearBits bmap m := by
  have hone : i + 1 ≤ m := him
  refine (clearBits_of_cleared hone (fun j hlo hhi => ?_) fun j _ => ?_).symm
  · obtain rfl : j = i := by omega
    rw [bit_bmapBitSet hin, decide_eq_true rfl, Bool.true_or]
  · rw [bit_bmapBitSet hin]
    by_cases hji : j = i
    · subst hji
      simp [hclear]
    · have hout : ¬ (i ≤ j ∧ j < i + 1) := by omega
      rw [decide_eq_false hji, decide_eq_false hout, Bool.false_or, Bool.not_false, Bool.and_true]

theorem clearBits_pos {bmap : Buf n} {m i : ℕ} (him : i < m) (hclear : bit bmap i = false) :
    0 < clearBits bmap m := by
  rcases Nat.eq_zero_or_pos (clearBits bmap m) with hzero | hpos
  · rw [clearBits_eq_zero.mp hzero i him] at hclear
    cases hclear
  · exact hpos

end Ext4

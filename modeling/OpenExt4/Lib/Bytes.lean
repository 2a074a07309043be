import Mathlib.Data.Fintype.Pi
import Mathlib.Data.Nat.Bitwise
import Mathlib.Tactic.Positivity
import Mathlib.Tactic.Ring

set_option autoImplicit false

/-! # Fixed-size byte buffers with big-endian fields

A buffer of `n` bytes, one write primitive (`patch`, which every field store, `memset` and
`memcpy` is an instance of) and one family of reads (`getBE`, the big-endian number in `w`
consecutive bytes). A read is determined by the bytes of its window, so a store that does not
meet the window leaves it alone; that, and reading back what a store put there, is all the
reasoning about formats above needs. -/

namespace Bytes

/-- A buffer of exactly `n` bytes. -/
def Buf (n : ℕ) : Type := Fin n → UInt8

instance (n : ℕ) : DecidableEq (Buf n) := inferInstanceAs (DecidableEq (Fin n → UInt8))

variable {n : ℕ}

/-- The buffer of zero bytes. -/
def zeros (n : ℕ) : Buf n := fun _ => 0

/-- The byte at `i`, `0` past the end. -/
def get8 (b : Buf n) (i : ℕ) : UInt8 :=
  if h : i < n then b ⟨i, h⟩ else 0

/-- Overwrite the `len` bytes from offset `o` on with `f 0, f 1, …`. -/
def patch (b : Buf n) (o len : ℕ) (f : ℕ → UInt8) : Buf n :=
  fun i => if o ≤ i.val ∧ i.val < o + len then f (i.val - o) else b i

/-- The bytes of the buffer in order, as a checksum reads them. -/
def toList (b : Buf n) : List UInt8 := List.ofFn b

theorem ext_get8 {a b : Buf n} (h : ∀ i < n, get8 a i = get8 b i) : a = b := by
  funext ⟨i, hi⟩
  simpa [get8, hi] using h i hi

theorem get8_patch (b : Buf n) (o len : ℕ) (f : ℕ → UInt8) (i : ℕ) :
    get8 (patch b o len f) i
      = if i < n ∧ o ≤ i ∧ i < o + len then f (i - o) else get8 b i := by
  unfold get8 patch
  by_cases hi : i < n <;> simp [hi]

theorem get8_patch_of_mem {b : Buf n} {o len : ℕ} {f : ℕ → UInt8} {i : ℕ}
    (hn : i < n) (hlo : o ≤ i) (hhi : i < o + len) :
    get8 (patch b o len f) i = f (i - o) := by
  rw [get8_patch, if_pos ⟨hn, hlo, hhi⟩]

theorem get8_patch_of_disjoint {b : Buf n} {o len : ℕ} {f : ℕ → UInt8} {i : ℕ}
    (h : i < o ∨ o + len ≤ i) :
    get8 (patch b o len f) i = get8 b i := by
  rw [get8_patch, if_neg (by omega)]

/-! ## Big-endian numbers -/

/-- Byte `k` of the `w`-byte big-endian representation of `v`, most significant first. -/
def beByte (w v k : ℕ) : UInt8 := UInt8.ofNat (v / 256 ^ (w - 1 - k))

/-- The big-endian number in the `w` bytes from `o` on. -/
def getBE : ℕ → Buf n → ℕ → ℕ
  | 0, _, _ => 0
  | w + 1, b, o => (get8 b o).toNat * 256 ^ w + getBE w b (o + 1)

/-- Store `v` as `w` big-endian bytes from `o` on; what does not fit in `w` bytes is cut off. -/
def putBE (w : ℕ) (b : Buf n) (o v : ℕ) : Buf n := patch b o w (beByte w v)

/-- A read depends on the bytes of its window only. -/
theorem getBE_congr {a b : Buf n} {w o : ℕ}
    (h : ∀ i, o ≤ i → i < o + w → get8 a i = get8 b i) : getBE w a o = getBE w b o := by
  induction w generalizing o with
  | zero => rfl
  | succ w ih =>
      have hhead : get8 a o = get8 b o := h o (by omega) (by omega)
      have htail : getBE w a (o + 1) = getBE w b (o + 1) :=
        ih fun i hlo hhi => h i (by omega) (by omega)
      simp only [getBE, hhead, htail]

theorem getBE_lt (w : ℕ) (b : Buf n) (o : ℕ) : getBE w b o < 256 ^ w := by
  induction w generalizing o with
  | zero => simp [getBE]
  | succ w ih =>
      have hbyte : (get8 b o).toNat ≤ 255 := by have := (get8 b o).toNat_lt; omega
      have htail := ih (o + 1)
      calc (get8 b o).toNat * 256 ^ w + getBE w b (o + 1)
          < 255 * 256 ^ w + 256 ^ w :=
            Nat.add_lt_add_of_le_of_lt (Nat.mul_le_mul_right _ hbyte) htail
        _ = 256 ^ (w + 1) := by ring

/-- A store outside the window is not seen by a read. -/
theorem getBE_patch_of_disjoint {b : Buf n} {o len : ℕ} {f : ℕ → UInt8} {w p : ℕ}
    (h : p + w ≤ o ∨ o + len ≤ p) : getBE w (patch b o len f) p = getBE w b p :=
  getBE_congr fun _ _ _ => get8_patch_of_disjoint (by omega)

theorem getBE_putBE_of_disjoint {b : Buf n} {w w' o p v : ℕ}
    (h : p + w ≤ o ∨ o + w' ≤ p) : getBE w (putBE w' b o v) p = getBE w b p :=
  getBE_patch_of_disjoint h

/-- A read inside zeroed bytes. -/
theorem getBE_patch_zero {b : Buf n} {o len w p : ℕ} (hlo : o ≤ p) (hhi : p + w ≤ o + len)
    (hn : p + w ≤ n) : getBE w (patch b o len fun _ => 0) p = 0 := by
  induction w generalizing p with
  | zero => rfl
  | succ w ih =>
      rw [getBE, get8_patch_of_mem (by omega) (by omega) (by omega),
        ih (by omega) (by omega) (by omega)]
      simp

/-- The last `w` bytes of a `W`-byte store hold the value modulo `256 ^ w`. -/
theorem getBE_putBE_suffix {b : Buf n} {W w o v : ℕ} (hw : w ≤ W) (hn : o + W ≤ n) :
    getBE w (putBE W b o v) (o + (W - w)) = v % 256 ^ w := by
  induction w with
  | zero => simp [getBE, Nat.mod_one]
  | succ w ih =>
      have htail : getBE w (putBE W b o v) (o + (W - (w + 1)) + 1) = v % 256 ^ w := by
        rw [← ih (by omega)]
        congr 1
        omega
      have hbyte : (get8 (putBE W b o v) (o + (W - (w + 1)))).toNat = v / 256 ^ w % 256 := by
        rw [putBE, get8_patch_of_mem (by omega) (by omega) (by omega), beByte,
          UInt8.toNat_ofNat']
        congr 3
        omega
      rw [getBE, htail, hbyte, Nat.mod_pow_succ]
      ring

/-- Reading back a store gives the value, cut to the width of the field. -/
theorem getBE_putBE {b : Buf n} {w o v : ℕ} (hn : o + w ≤ n) :
    getBE w (putBE w b o v) o = v % 256 ^ w := by
  simpa using getBE_putBE_suffix (b := b) (o := o) (v := v) le_rfl hn

/-- A wide field is its high part and its low part. -/
theorem getBE_add (w₁ w₂ : ℕ) (b : Buf n) (o : ℕ) :
    getBE (w₁ + w₂) b o = getBE w₁ b o * 256 ^ w₂ + getBE w₂ b (o + w₁) := by
  induction w₁ generalizing o with
  | zero => simp [getBE]
  | succ w ih =>
      have hassoc : w + 1 + w₂ = (w + w₂) + 1 := by omega
      rw [hassoc, getBE, ih (o + 1), getBE, show o + 1 + w = o + (w + 1) by omega, pow_add]
      ring

/-- Two stores at one place: the second one counts. -/
theorem putBE_putBE_same (b : Buf n) (w o v v' : ℕ) :
    putBE w (putBE w b o v) o v' = putBE w b o v' := by
  refine ext_get8 fun i _ => ?_
  simp only [putBE, get8_patch]
  split <;> simp_all

/-- The bytes of the number in a window are the bytes of the window. -/
theorem beByte_getBE (b : Buf n) {w k : ℕ} (o : ℕ) (hk : k < w) :
    beByte w (getBE w b o) k = get8 b (o + k) := by
  obtain ⟨r, rfl⟩ : ∃ r, w = k + 1 + r := ⟨w - (k + 1), by omega⟩
  have hpos : 0 < 256 ^ r := by positivity
  have hhigh : getBE (k + 1 + r) b o / 256 ^ r = getBE (k + 1) b o := by
    rw [getBE_add (k + 1) r, Nat.mul_comm, Nat.mul_add_div hpos,
      Nat.div_eq_of_lt (getBE_lt r b _), Nat.add_zero]
  have hlow : getBE (k + 1) b o = getBE k b o * 256 + (get8 b (o + k)).toNat := by
    rw [getBE_add k 1]
    simp [getBE]
  rw [beByte, show k + 1 + r - 1 - k = r by omega, hhigh, hlow]
  apply UInt8.toNat_inj.mp
  simp

/-- Storing what a field already holds changes nothing. -/
theorem putBE_getBE_self (b : Buf n) (w o : ℕ) : putBE w b o (getBE w b o) = b := by
  refine ext_get8 fun i _ => ?_
  rw [putBE, get8_patch]
  split
  · next h =>
      rw [beByte_getBE b o (by omega)]
      congr 1
      omega
  · rfl

/-! ## Little-endian numbers -/

/-- The little-endian number in the `w` bytes from `o` on. -/
def getLE : ℕ → Buf n → ℕ → ℕ
  | 0, _, _ => 0
  | w + 1, b, o => (get8 b o).toNat + 256 * getLE w b (o + 1)

/-- Store `v` as `w` little-endian bytes from `o` on. -/
def putLE (w : ℕ) (b : Buf n) (o v : ℕ) : Buf n :=
  patch b o w fun i => UInt8.ofNat (v / 256 ^ i)

theorem getLE_congr {a b : Buf n} {w o : ℕ}
    (h : ∀ i, o ≤ i → i < o + w → get8 a i = get8 b i) : getLE w a o = getLE w b o := by
  induction w generalizing o with
  | zero => rfl
  | succ w ih =>
      have hhead : get8 a o = get8 b o := h o (by omega) (by omega)
      have htail : getLE w a (o + 1) = getLE w b (o + 1) :=
        ih fun i hlo hhi => h i (by omega) (by omega)
      simp only [getLE, hhead, htail]

theorem getLE_lt (w : ℕ) (b : Buf n) (o : ℕ) : getLE w b o < 256 ^ w := by
  induction w generalizing o with
  | zero => simp [getLE]
  | succ w ih =>
      have hbyte : (get8 b o).toNat < 256 := (get8 b o).toNat_lt
      have htail := ih (o + 1)
      rw [getLE, Nat.pow_succ]
      omega

/-- A wide field is its low part and its high part. -/
theorem getLE_add (w₁ w₂ : ℕ) (b : Buf n) (o : ℕ) :
    getLE (w₁ + w₂) b o = getLE w₁ b o + 256 ^ w₁ * getLE w₂ b (o + w₁) := by
  induction w₁ generalizing o with
  | zero => simp [getLE]
  | succ w ih =>
      have hassoc : w + 1 + w₂ = (w + w₂) + 1 := by omega
      rw [hassoc, getLE, ih (o + 1), getLE, show o + 1 + w = o + (w + 1) by omega, pow_succ]
      ring

/-- A store outside the window is not seen by a read. -/
theorem getLE_patch_of_disjoint {b : Buf n} {o len : ℕ} {f : ℕ → UInt8} {w p : ℕ}
    (h : p + w ≤ o ∨ o + len ≤ p) : getLE w (patch b o len f) p = getLE w b p :=
  getLE_congr fun _ _ _ => get8_patch_of_disjoint (by omega)

/-- Reading back a store gives the value, cut to the width of the field. -/
theorem getLE_putLE {b : Buf n} {w o v : ℕ} (hn : o + w ≤ n) :
    getLE w (putLE w b o v) o = v % 256 ^ w := by
  have hsuffix (k : ℕ) (hk : k ≤ w) :
      getLE k (putLE w b o v) (o + (w - k)) = v / 256 ^ (w - k) % 256 ^ k := by
    induction k with
    | zero => simp [getLE, Nat.mod_one]
    | succ k ih =>
        have hstep : w - k = w - (k + 1) + 1 := by omega
        have htail := ih (by omega)
        rw [hstep, ← Nat.add_assoc] at htail
        have hbyte : (get8 (putLE w b o v) (o + (w - (k + 1)))).toNat
            = v / 256 ^ (w - (k + 1)) % 256 := by
          rw [putLE, get8_patch_of_mem (by omega) (by omega) (by omega), UInt8.toNat_ofNat',
            Nat.add_sub_cancel_left]
        rw [getLE, htail, hbyte, Nat.pow_succ 256 (w - (k + 1)), ← Nat.div_div_eq_div_mul,
          Nat.pow_succ', Nat.mod_mul]
  have hwhole := hsuffix w le_rfl
  simpa using hwhole

/-- A buffer is determined by the number in it. -/
theorem ext_getLE {a b : Buf n} (h : getLE n a 0 = getLE n b 0) : a = b := by
  have hbytes (w o : ℕ) (h : getLE w a o = getLE w b o) :
      ∀ i, o ≤ i → i < o + w → get8 a i = get8 b i := by
    induction w generalizing o with
    | zero => intro i hlo hhi; omega
    | succ w ih =>
        have ha : (get8 a o).toNat < 256 := (get8 a o).toNat_lt
        have hb : (get8 b o).toNat < 256 := (get8 b o).toNat_lt
        rw [getLE, getLE] at h
        intro i hlo hhi
        by_cases hi : i = o
        · subst hi
          exact UInt8.toNat_inj.mp (by omega)
        · exact ih (o + 1) (by omega) i (by omega) (by omega)
  exact ext_get8 fun i hi => hbytes n 0 h i (Nat.zero_le _) (by omega)

/-! ## Copying bytes between buffers -/

/-- `memcpy` of `len` bytes from offset `so` of `src` to offset `o`. -/
def copy {m : ℕ} (b : Buf n) (o : ℕ) (src : Buf m) (so len : ℕ) : Buf n :=
  patch b o len fun i => get8 src (so + i)

/-- The `len` bytes from offset `o` on, as a buffer of their own. -/
def slice (b : Buf n) (o len : ℕ) : Buf len := fun i => get8 b (o + i.val)

theorem slice_copy {m : ℕ} {b : Buf n} {o : ℕ} {src : Buf m} (hn : o + m ≤ n) :
    slice (copy b o src 0 m) o m = src := by
  funext ⟨i, hi⟩
  simp only [slice, copy]
  rw [get8_patch_of_mem (by omega) (by omega) (by omega)]
  simp [get8, hi]

theorem slice_congr {a b : Buf n} {o len : ℕ}
    (h : ∀ i, o ≤ i → i < o + len → get8 a i = get8 b i) : slice a o len = slice b o len := by
  funext ⟨i, hi⟩
  exact h (o + i) (by omega) (by omega)

end Bytes

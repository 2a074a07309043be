import OpenExt4.Lib.Device
import Mathlib.Algebra.Order.Ring.Nat
import Mathlib.Data.Nat.Init
import Mathlib.Tactic.Ring

set_option autoImplicit false

/-! # A device seen through a cipher of its sectors

Records of `n` bytes, each under a cipher of its own, that lie one after the other on a device from
`base` on. What the device holds is the ciphertext; `view` is the array of bytes behind it. A byte
of the view depends on its own sector alone, so a stretch of whole sectors written to the device
changes the view there and nowhere else. -/

variable {α : Type}

/-- Two streams of bytes that agree on the first `n`. -/
def AgreeTo (n : ℕ) (p q : ℕ → α) : Prop := ∀ k < n, p k = q k

/-- A cipher for sectors of `n` bytes: each sector number has its own, encryption can be undone,
    and neither direction looks past the sector. -/
structure SectorCipher (α : Type) (n : ℕ) where
  enc : ℕ → (ℕ → α) → ℕ → α
  dec : ℕ → (ℕ → α) → ℕ → α
  pos : 0 < n
  dec_enc : ∀ i p, dec i (enc i p) = p
  enc_local : ∀ i {p q}, AgreeTo n p q → AgreeTo n (enc i p) (enc i q)
  dec_local : ∀ i {p q}, AgreeTo n p q → AgreeTo n (dec i p) (dec i q)

namespace SectorCipher

variable {n : ℕ} (c : SectorCipher α n)

/-- Sector `i` of an array. -/
def sector (n : ℕ) (data : ℕ → α) (i : ℕ) : ℕ → α := fun k => data (i * n + k)

/-- Every sector of a window through `f`, the first of them numbered `first`. -/
def each (n first : ℕ) (f : ℕ → (ℕ → α) → ℕ → α) (window : ℕ → α) : ℕ → α :=
  fun x => f (first + x / n) (sector n window (x / n)) (x % n)

/-- The array of bytes behind the device. -/
def view (base : ℕ) (dev : ℕ → α) : ℕ → α := each n 0 c.dec fun x => dev (base + x)

/-- Byte `k` of one of `count` sectors lies among their bytes. -/
theorem place_lt {n i k count : ℕ} (hi : i < count) (hk : k < n) : i * n + k < count * n := by
  calc i * n + k < i * n + n := Nat.add_lt_add_left hk _
    _ = (i + 1) * n := (Nat.succ_mul i n).symm
    _ ≤ count * n := Nat.mul_le_mul_right n hi

/-- The place of byte `k` of sector `i` in a window. -/
theorem each_apply (hn : 0 < n) {first i k : ℕ} {f : ℕ → (ℕ → α) → ℕ → α} {window : ℕ → α}
    (hk : k < n) : each n first f window (i * n + k) = f (first + i) (sector n window i) k := by
  have hdiv : (i * n + k) / n = i := by
    rw [Nat.mul_comm, Nat.mul_add_div hn, Nat.div_eq_of_lt hk, Nat.add_zero]
  have hmod : (i * n + k) % n = k := by
    rw [Nat.mul_comm, Nat.mul_add_mod, Nat.mod_eq_of_lt hk]
  rw [each, hdiv, hmod]

/-- A window into an array, its sectors numbered as the array's are. -/
theorem each_window {n first y : ℕ} {f : ℕ → (ℕ → α) → ℕ → α} (hn : 0 < n) {p : ℕ → α} :
    each n first f (fun y => p (first * n + y)) y = each n 0 f p (first * n + y) := by
  have hdiv : (first * n + y) / n = first + y / n := by
    rw [Nat.mul_comm, Nat.mul_add_div hn]
  have hmod : (first * n + y) % n = y % n := by
    rw [Nat.mul_comm, Nat.mul_add_mod]
  have hsector : sector n (fun y => p (first * n + y)) (y / n) = sector n p (first + y / n) := by
    funext k
    rw [sector, sector, Nat.add_mul, Nat.add_assoc]
  rw [each, each, hdiv, hmod, hsector, Nat.zero_add]

/-- Windows that agree still agree when their sectors have been through a cipher. -/
theorem each_congr {n first count : ℕ} {f : ℕ → (ℕ → α) → ℕ → α} (hn : 0 < n)
    (hlocal : ∀ i {p q}, AgreeTo n p q → AgreeTo n (f i p) (f i q)) {p q : ℕ → α}
    (h : AgreeTo (count * n) p q) : AgreeTo (count * n) (each n first f p) (each n first f q) := by
  intro x hx
  have hi : x / n < count := (Nat.div_lt_iff_lt_mul hn).mpr hx
  exact hlocal _ (fun k hk => h _ (place_lt hi hk)) _ (Nat.mod_lt _ hn)

theorem view_apply {base i k : ℕ} {dev : ℕ → α} (hk : k < n) :
    c.view base dev (i * n + k) = c.dec i (sector n (fun x => dev (base + x)) i) k := by
  rw [view, each_apply c.pos hk, Nat.zero_add]

/-- A byte of the view depends on the bytes of its sector alone. -/
theorem view_congr {base i k : ℕ} {dev dev' : ℕ → α} (hk : k < n)
    (h : ∀ k < n, dev' (base + (i * n + k)) = dev (base + (i * n + k))) :
    c.view base dev' (i * n + k) = c.view base dev (i * n + k) := by
  rw [view_apply c hk, view_apply c hk]
  exact c.dec_local i h k hk

/-- A sector that holds a ciphertext shows its plaintext. -/
theorem view_of_enc {base i k : ℕ} {dev p : ℕ → α} (hk : k < n)
    (h : ∀ k < n, dev (base + (i * n + k)) = c.enc i p k) :
    c.view base dev (i * n + k) = p k := by
  rw [view_apply c hk, ← congrFun (c.dec_enc i p) k]
  exact c.dec_local i h k hk

/-- Decrypting a window read from the device gives the view. -/
theorem each_dec_eq_view {base first count x : ℕ} {dev window : ℕ → α} (hx : x < count * n)
    (h : ∀ y < count * n, window y = dev (base + first * n + y)) :
    each n first c.dec window x = c.view base dev (first * n + x) := by
  have hk : x % n < n := Nat.mod_lt _ c.pos
  have hi : x / n < count := (Nat.div_lt_iff_lt_mul c.pos).mpr hx
  have hsplit : first * n + x = (first + x / n) * n + x % n := by
    rw [Nat.add_mul, Nat.add_assoc, Nat.mul_comm (x / n) n, Nat.div_add_mod]
  rw [hsplit, view_apply c hk, each]
  refine c.dec_local _ (fun k hk' => ?_) _ hk
  rw [sector, h _ (place_lt hi hk'), sector]
  congr 1
  ring

/-! ## Going through a window sector by sector -/

variable {ε σ : Type}

/-- `for (off = …; …; off += stride)` with `count` turns left; a turn that fails ends the loop. -/
def sweep (turn : ℕ → σ → Except ε σ) (stride : ℕ) : ℕ → ℕ → σ → Except ε σ
  | 0, _, s => .ok s
  | count + 1, off, s =>
    match turn off s with
    | .error e => .error e
    | .ok s => sweep turn stride count (off + stride) s

/-- How often such a loop turns while `off < len`. -/
def turns (len stride : ℕ) : ℕ := (len + stride - 1) / stride

theorem turns_mul (hn : 0 < n) (count : ℕ) : turns (count * n) n = count := by
  have hsplit : count * n + n - 1 = n * count + (n - 1) := by
    rw [Nat.mul_comm]
    omega
  rw [turns, hsplit, Nat.mul_add_div hn, Nat.div_eq_of_lt (by omega), Nat.add_zero]

/-- A loop body that puts sector `i < total` through `f` and touches nothing else. -/
def TurnsSector (n first total : ℕ) (f : ℕ → (ℕ → α) → ℕ → α)
    (turn : ℕ → (ℕ → α) → Except ε (ℕ → α)) : Prop :=
  ∀ i < total, ∀ window window', turn (i * n) window = .ok window' → ∀ x, window' x =
    if i * n ≤ x ∧ x < i * n + n then f (first + i) (sector n window i) (x - i * n) else window x

theorem sweep_from {first total : ℕ} {f : ℕ → (ℕ → α) → ℕ → α}
    {turn : ℕ → (ℕ → α) → Except ε (ℕ → α)} (hn : 0 < n)
    (hturn : TurnsSector n first total f turn) {count i : ℕ} (hi : i + count ≤ total)
    {window window' : ℕ → α} (h : sweep turn n count (i * n) window = .ok window') (x : ℕ) :
    window' x = if i * n ≤ x ∧ x < (i + count) * n then each n first f window x else window x := by
  induction count generalizing i window with
  | zero =>
      cases h
      rw [if_neg (by rw [Nat.add_zero]; omega)]
  | succ count ih =>
      rw [sweep] at h
      cases hone : turn (i * n) window with
      | error e => rw [hone] at h; cases h
      | ok next =>
          rw [hone] at h
          dsimp only at h
          have hstep : (i + 1) * n = i * n + n := Nat.succ_mul i n
          rw [← hstep] at h
          have hnext := hturn i (by omega) window next hone
          have hend : (i + 1 + count) * n = (i + (count + 1)) * n := by ring
          have hlast : (i + (count + 1)) * n = i * n + (count * n + n) := by ring
          rw [ih (by omega) h, hend]
          by_cases hhere : i * n ≤ x ∧ x < i * n + n
          · have hdiv : x / n = i := by
              rw [Nat.div_eq_iff hn]
              omega
            have hmod : x % n = x - i * n := by
              have := Nat.div_add_mod x n
              rw [hdiv, Nat.mul_comm] at this
              omega
            rw [if_neg (by omega), if_pos (by omega), hnext, if_pos hhere, each, hdiv, hmod]
          · by_cases hin : i * n ≤ x ∧ x < (i + (count + 1)) * n
            · have hle : i + 1 ≤ x / n := (Nat.le_div_iff_mul_le hn).mpr (by omega)
              have hsector : sector n next (x / n) = sector n window (x / n) := by
                funext k
                have hmul : (i + 1) * n ≤ x / n * n := Nat.mul_le_mul_right n hle
                exact (hnext _).trans (if_neg (by omega))
              rw [if_pos (by omega), if_pos hin, each, each, hsector]
            · rw [if_neg (by omega), if_neg hin, hnext, if_neg hhere]

/-- A loop none of whose turns fails comes to its end. -/
theorem sweep_clean {turn : ℕ → σ → Except ε σ} {stride total : ℕ}
    (h : ∀ i < total, ∀ s, ∃ s', turn (i * stride) s = .ok s') {count i : ℕ}
    (hi : i + count ≤ total) (s : σ) :
    ∃ s', sweep turn stride count (i * stride) s = .ok s' := by
  induction count generalizing i s with
  | zero => exact ⟨s, rfl⟩
  | succ count ih =>
      obtain ⟨next, hnext⟩ := h i (by omega) s
      rw [sweep, hnext]
      dsimp only
      rw [← Nat.succ_mul]
      exact ih (by omega) next

/-- The whole loop puts every sector of the window through `f`. -/
theorem sweep_each {first : ℕ} {f : ℕ → (ℕ → α) → ℕ → α}
    {turn : ℕ → (ℕ → α) → Except ε (ℕ → α)} (hn : 0 < n) {count : ℕ}
    (hturn : TurnsSector n first count f turn) {window window' : ℕ → α}
    (h : sweep turn n count 0 window = .ok window') {x : ℕ} (hx : x < count * n) : window' x = each n first f window x := by
  have hzero : sweep turn n count (0 * n) window = .ok window' := by rwa [Nat.zero_mul]
  rw [sweep_from hn hturn (Nat.zero_add count).le hzero, if_pos (by rw [Nat.zero_add]; omega)]

/-! ## Writing whole sectors -/

variable {base first count : ℕ} {dev plain cipher : ℕ → α} {landed : ℕ → Bool}

/-- The device with `count` whole sectors written from sector `first` on. -/
abbrev written (n base first count : ℕ) (dev cipher : ℕ → α) (landed : ℕ → Bool) : ℕ → α :=
  ByteDevice.put dev (base + first * n) (count * n) cipher landed

/-- A sector outside of the written ones keeps its view. -/
theorem view_written_outside {i k : ℕ} (hk : k < n) (h : i < first ∨ first + count ≤ i) :
    c.view base (written n base first count dev cipher landed) (i * n + k)
      = c.view base dev (i * n + k) := by
  refine c.view_congr hk fun k hk => ByteDevice.put_outside ?_
  rcases h with h | h
  · have hle : (i + 1) * n ≤ first * n := Nat.mul_le_mul_right n h
    rw [Nat.succ_mul] at hle
    omega
  · have hle : (first + count) * n ≤ i * n := Nat.mul_le_mul_right n h
    rw [Nat.add_mul] at hle
    omega

/-- A sector none of whose bytes landed keeps its view. -/
theorem view_written_missed {i k : ℕ} (hk : k < n)
    (h : ∀ k < n, landed (base + (i * n + k)) = false) :
    c.view base (written n base first count dev cipher landed) (i * n + k)
      = c.view base dev (i * n + k) := by
  refine c.view_congr hk fun k hk => ?_
  simp [written, ByteDevice.put, h k hk]

/-- A sector that landed whole shows what was encrypted into it. -/
theorem view_written_landed {i k : ℕ} (hk : k < n) (hi : i < count)
    (h : ∀ k < n, landed (base + ((first + i) * n + k)) = true)
    (hcipher : ∀ x < count * n, cipher x = each n first c.enc plain x) :
    c.view base (written n base first count dev cipher landed) ((first + i) * n + k)
      = plain (i * n + k) := by
  refine c.view_of_enc (p := sector n plain i) hk fun k hk => ?_
  have hin : i * n + k < count * n := place_lt hi hk
  have hplace : base + ((first + i) * n + k) = base + first * n + (i * n + k) := by ring
  have hput := h k hk
  rw [hplace] at hput ⊢
  rw [written, ByteDevice.put, if_pos ⟨Nat.le_add_right _ _, by omega, hput⟩,
    Nat.add_sub_cancel_left, hcipher _ hin, each_apply c.pos hk]

end SectorCipher

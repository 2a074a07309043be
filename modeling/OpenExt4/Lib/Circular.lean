import Mathlib.Data.Nat.ModEq
import Mathlib.Logic.Function.Iterate

set_option autoImplicit false

/-! # Positions in a circular area

An area of slots `lo, lo + 1, …, hi - 1` used round and round. `next` is the slot behind a slot,
`dist p q` how many steps lead from `p` to `q`. Fewer steps than there are slots never come back
to the same slot, which is what keeps a writer off what it has just written. -/

namespace Circular

variable {lo hi : ℕ}

/-- `p` is a slot of the area. -/
def Mem (lo hi p : ℕ) : Prop := lo ≤ p ∧ p < hi

instance (lo hi p : ℕ) : Decidable (Mem lo hi p) := inferInstanceAs (Decidable (_ ∧ _))

/-- The slot behind `p`. -/
def next (lo hi p : ℕ) : ℕ :=
  if p + 1 ≥ hi then p + 1 - (hi - lo) else p + 1

/-- The number of steps from `p` to `q`. -/
def dist (lo hi p q : ℕ) : ℕ := (q + (hi - lo) - p) % (hi - lo)

theorem Mem.next {p : ℕ} (h : Mem lo hi p) : Mem lo hi (next lo hi p) := by
  obtain ⟨hlo, hhi⟩ := h
  unfold Circular.next Mem
  split <;> omega

theorem Mem.iterate {p : ℕ} (h : Mem lo hi p) (k : ℕ) : Mem lo hi
    ((Circular.next lo hi)^[k] p) := by
  induction k with
  | zero => exact h
  | succ k ih =>
      rw [Function.iterate_succ_apply']
      exact ih.next

/-- Where `k` steps lead. -/
theorem iterate_next {p : ℕ} (h : Mem lo hi p) (k : ℕ) :
    (next lo hi)^[k] p = lo + (p - lo + k) % (hi - lo) := by
  obtain ⟨hlo, hhi⟩ := h
  induction k with
  | zero =>
      rw [Function.iterate_zero_apply, Nat.add_zero, Nat.mod_eq_of_lt (by omega)]
      omega
  | succ k ih =>
      have hlt : (p - lo + k) % (hi - lo) < hi - lo := Nat.mod_lt _ (by omega)
      have hsucc : (p - lo + (k + 1)) % (hi - lo) = ((p - lo + k) % (hi - lo) + 1) % (hi - lo) := by
        rw [Nat.mod_add_mod, Nat.add_assoc]
      rw [Function.iterate_succ_apply', ih, hsucc]
      generalize (p - lo + k) % (hi - lo) = r at hlt
      unfold next
      split
      · rw [show r + 1 = hi - lo by omega, Nat.mod_self]
        omega
      · rw [Nat.mod_eq_of_lt (by omega)]
        omega

/-- A whole round leads back. -/
theorem iterate_size {p : ℕ} (h : Mem lo hi p) : (next lo hi)^[hi - lo] p = p := by
  rw [iterate_next h, Nat.add_mod_right]
  obtain ⟨hlo, hhi⟩ := h
  rw [Nat.mod_eq_of_lt (by omega)]
  omega

/-- **Fewer steps than slots do not meet**: the first `hi - lo` slots from `p` on are distinct. -/
theorem iterate_next_ne {p j k : ℕ} (h : Mem lo hi p) (hjk : j < k) (hk : k - j < hi - lo) :
    (next lo hi)^[j] p ≠ (next lo hi)^[k] p := by
  rw [iterate_next h, iterate_next h]
  intro heq
  have hmod : (p - lo + j) % (hi - lo) = (p - lo + k) % (hi - lo) := by omega
  have hdvd : (hi - lo) ∣ (p - lo + k) - (p - lo + j) :=
    (Nat.modEq_iff_dvd' (by omega)).mp hmod
  have := Nat.le_of_dvd (by omega) hdvd
  omega

theorem dist_lt {p q : ℕ} (h : Mem lo hi p) : dist lo hi p q < hi - lo :=
  Nat.mod_lt _ (by obtain ⟨_, _⟩ := h; omega)

/-- `dist` steps from `p` lead to `q`. -/
theorem iterate_dist {p q : ℕ} (hp : Mem lo hi p) (hq : Mem lo hi q) :
    (next lo hi)^[dist lo hi p q] p = q := by
  rw [iterate_next hp, dist, Nat.add_mod_mod]
  obtain ⟨hplo, hphi⟩ := hp
  obtain ⟨hqlo, hqhi⟩ := hq
  rw [show p - lo + (q + (hi - lo) - p) = (q - lo) + (hi - lo) by omega, Nat.add_mod_right,
    Nat.mod_eq_of_lt (by omega)]
  omega

/-- From `m` slots ahead of `p` the rest of the round leads back to `p`. -/
theorem dist_iterate_self {p m : ℕ} (hp : Mem lo hi p) (hpos : 0 < m) (hm : m ≤ hi - lo) :
    dist lo hi ((next lo hi)^[m] p) p = hi - lo - m := by
  rw [iterate_next hp, dist]
  obtain ⟨hplo, hphi⟩ := hp
  by_cases hwrap : p - lo + m < hi - lo
  · rw [Nat.mod_eq_of_lt hwrap, show p + (hi - lo) - (lo + (p - lo + m)) = hi - lo - m by omega]
    exact Nat.mod_eq_of_lt (by omega)
  · have hmod : (p - lo + m) % (hi - lo) = p - lo + m - (hi - lo) := by
      rw [Nat.mod_eq_sub_mod (by omega), Nat.mod_eq_of_lt (by omega)]
    rw [hmod, show p + (hi - lo) - (lo + (p - lo + m - (hi - lo)))
      = (hi - lo - m) + (hi - lo) by omega, Nat.add_mod_right]
    exact Nat.mod_eq_of_lt (by omega)

/-- A slot that is reached from `m` slots ahead of `p` no later than `p` itself lies between the
    two. -/
theorem exists_iterate_of_dist_le {p q m : ℕ} (hp : Mem lo hi p) (hq : Mem lo hi q)
    (hpos : 0 < m) (hm : m ≤ hi - lo)
    (hle : dist lo hi ((next lo hi)^[m] p) q ≤ dist lo hi ((next lo hi)^[m] p) p) :
    ∃ m', m ≤ m' ∧ m' ≤ hi - lo ∧ q = (next lo hi)^[m'] p := by
  rw [dist_iterate_self hp hpos hm] at hle
  refine ⟨dist lo hi ((next lo hi)^[m] p) q + m, by omega, by omega, ?_⟩
  rw [Function.iterate_add_apply, iterate_dist (hp.iterate m) hq]

end Circular

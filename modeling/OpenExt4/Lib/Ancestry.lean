import Mathlib.Data.Finset.Card
import Mathlib.Data.Nat.Find
import Mathlib.Logic.Function.Iterate

set_option autoImplicit false

/-! # Walks to a root

A forest given by a parent function `up` with one root: which nodes reach the root (`Rooted`), which
do so without meeting a given node (`Avoids`), and what hanging a subtree somewhere else does to
both. -/

namespace Ancestry

variable {α : Type*}

/-- Following `up` from the node comes to the root. -/
inductive Rooted (up : α → α) (root : α) : α → Prop
  | root : Rooted up root root
  | step {d : α} : Rooted up root (up d) → Rooted up root d

/-- Following `up` from the node comes to the root and does not meet `c` before. -/
inductive Avoids (up : α → α) (root c : α) : α → Prop
  | root : Avoids up root c root
  | step {d : α} : d ≠ c → Avoids up root c (up d) → Avoids up root c d

variable {up up' : α → α} {root : α}

theorem Rooted.iterate {d : α} (h : Rooted up root d) : ∃ n, up^[n] d = root := by
  induction h with
  | root => exact ⟨0, rfl⟩
  | step _ ih =>
      obtain ⟨n, hn⟩ := ih
      exact ⟨n + 1, hn⟩

theorem rooted_of_iterate {d : α} (n : ℕ) (h : up^[n] d = root) : Rooted up root d := by
  induction n generalizing d with
  | zero =>
      have hd : d = root := h
      rw [hd]
      exact .root
  | succ n ih => exact .step (ih h)

/-- Only the root may be its own parent. -/
theorem Rooted.eq_root {d : α} (h : Rooted up root d) (hself : up d = d) : d = root := by
  obtain ⟨n, hn⟩ := h.iterate
  rw [← hn, Function.iterate_fixed hself]

/-- A walk within a set of nodes is a walk of any parent function that agrees on the set. -/
theorem Rooted.congr {s : Set α} (hclosed : ∀ d ∈ s, d ≠ root → up d ∈ s)
    (hagree : ∀ d ∈ s, d ≠ root → up' d = up d) {d : α} (hd : d ∈ s) (h : Rooted up root d) :
    Rooted up' root d := by
  induction h with
  | root => exact .root
  | @step d _ ih =>
      by_cases hroot : d = root
      · rw [hroot]
        exact .root
      · refine .step ?_
        rw [hagree d hd hroot]
        exact ih (hclosed d hd hroot)

/-- A node avoids itself only if it is the root. -/
theorem Avoids.eq_root {c d : α} (h : Avoids up root c d) (hc : d = c) : d = root := by
  cases h with
  | root => rfl
  | step hne => exact absurd hc hne

/-- A walk that avoids `c` within a set of nodes avoids it under any parent function that agrees on
    the set. -/
theorem Avoids.congr {s : Set α} (hclosed : ∀ d ∈ s, d ≠ root → up d ∈ s)
    (hagree : ∀ d ∈ s, d ≠ root → up' d = up d) {c d : α} (hd : d ∈ s) (h : Avoids up root c d) :
    Avoids up' root c d := by
  induction h with
  | root => exact .root
  | @step d hne _ ih =>
      by_cases hroot : d = root
      · rw [hroot]
        exact .root
      · refine .step hne ?_
        rw [hagree d hd hroot]
        exact ih (hclosed d hd hroot)

/-- Where no node of the walk is `c`, the walk avoids it. -/
theorem Rooted.avoids {c d : α} (h : Rooted up root d) (hne : ∀ n, up^[n] d ≠ c) :
    Avoids up root c d := by
  induction h with
  | root => exact .root
  | step _ ih => exact .step (hne 0) (ih fun n => hne (n + 1))

/-- A walk that does not meet `c` does not see where `c` hangs. -/
theorem Avoids.rooted {c : α} (hagree : ∀ d, d ≠ c → up' d = up d) {d : α}
    (h : Avoids up root c d) : Rooted up' root d := by
  induction h with
  | root => exact .root
  | step hne _ ih =>
      refine .step ?_
      rw [hagree _ hne]
      exact ih

/-- **Hanging `c` under a node that is not below it leaves every node rooted.** -/
theorem Rooted.move {c : α} (hagree : ∀ d, d ≠ c → up' d = up d)
    (havoids : Avoids up root c (up' c)) {d : α} (h : Rooted up root d) : Rooted up' root d := by
  induction h with
  | root => exact .root
  | @step d _ ih =>
      refine .step ?_
      by_cases hc : d = c
      · rw [hc]
        exact havoids.rooted hagree
      · rw [hagree d hc]
        exact ih

/-- Within a finite set the root is reached in fewer steps than the set has nodes. -/
theorem Rooted.exists_lt_card {s : Finset α} (hclosed : ∀ d ∈ s, d ≠ root → up d ∈ s) {d : α}
    (hd : d ∈ s) (h : Rooted up root d) : ∃ n < s.card, up^[n] d = root := by
  classical
  have hex := h.iterate
  have hmin : ∀ k < Nat.find hex, up^[k] d ≠ root := fun k hk => Nat.find_min hex hk
  have hfind := Nat.find_spec hex
  generalize Nat.find hex = n at hmin hfind
  have hmem : ∀ k ≤ n, up^[k] d ∈ s := by
    intro k hk
    induction k with
    | zero => exact hd
    | succ k ih =>
        rw [Function.iterate_succ_apply']
        exact hclosed _ (ih (by omega)) (hmin k (by omega))
  -- a node met twice would shorten the walk
  have hinj : Set.InjOn (fun k => up^[k] d) (Finset.range (n + 1)) := by
    intro i hi j hj heq
    by_contra hne
    rw [Finset.coe_range, Set.mem_Iio] at hi hj
    dsimp only at heq
    rcases Nat.lt_or_gt_of_ne hne with hlt | hlt
    · refine hmin (n - j + i) (by omega) ?_
      rw [Function.iterate_add_apply, heq, ← Function.iterate_add_apply,
        show n - j + j = n by omega, hfind]
    · refine hmin (n - i + j) (by omega) ?_
      rw [Function.iterate_add_apply, ← heq, ← Function.iterate_add_apply,
        show n - i + i = n by omega, hfind]
  refine ⟨n, ?_, hfind⟩
  have hcard := Finset.card_le_card_of_injOn (fun k => up^[k] d)
    (fun k hk => hmem k (by have := Finset.mem_range.mp hk; omega)) hinj
  rw [Finset.card_range] at hcard
  omega

end Ancestry

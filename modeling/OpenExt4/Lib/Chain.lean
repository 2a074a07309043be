import Mathlib.Data.List.Nodup
import Mathlib.Data.Nat.Notation

set_option autoImplicit false

/-! # Chains

A linked list of numbers that is kept in a function `next`, 0 being its end, and what writing `next`
at the places where a list is edited does to it. -/

namespace Chain

/-- Following `next` from `head` visits the nodes of the list in turn and ends at 0. -/
inductive IsChain (next : ℕ → ℕ) : ℕ → List ℕ → Prop
  | nil : IsChain next 0 []
  | cons {i : ℕ} {l : List ℕ} : i ≠ 0 → IsChain next (next i) l → IsChain next i (i :: l)

variable {next next' : ℕ → ℕ}

theorem IsChain.head_eq {head i : ℕ} {l : List ℕ} (h : IsChain next head (i :: l)) :
    head = i ∧ i ≠ 0 ∧ IsChain next (next i) l := by
  cases h with
  | cons hne htail => exact ⟨rfl, hne, htail⟩

theorem IsChain.eq_nil {l : List ℕ} (h : IsChain next 0 l) : l = [] := by
  cases h with
  | nil => rfl
  | cons hne => exact absurd rfl hne

theorem IsChain.ne_zero {head : ℕ} {l : List ℕ} (h : IsChain next head l) : 0 ∉ l := by
  induction h with
  | nil => exact List.not_mem_nil
  | cons hne _ ih =>
      intro hmem
      rcases List.mem_cons.mp hmem with heq | htail
      · exact hne heq.symm
      · exact ih htail

/-- There is one chain from a head. -/
theorem IsChain.unique {head : ℕ} {l l' : List ℕ} (h : IsChain next head l)
    (h' : IsChain next head l') : l = l' := by
  induction h generalizing l' with
  | nil => exact h'.eq_nil.symm
  | @cons i l hne _ ih =>
      cases h' with
      | nil => exact absurd rfl hne
      | cons _ htail => rw [ih htail]

/-- A chain only sees `next` at its own nodes. -/
theorem IsChain.congr {head : ℕ} {l : List ℕ} (h : IsChain next head l)
    (hagree : ∀ i ∈ l, next' i = next i) : IsChain next' head l := by
  induction h with
  | nil => exact .nil
  | @cons i l hne _ ih =>
      refine .cons hne ?_
      rw [hagree i List.mem_cons_self]
      exact ih fun j hj => hagree j (List.mem_cons_of_mem _ hj)

/-- A node put in front. -/
theorem IsChain.push {head i : ℕ} {l : List ℕ} (h : IsChain next head l) (hne : i ≠ 0)
    (hnext : next' i = head) (hagree : ∀ j ∈ l, next' j = next j) : IsChain next' i (i :: l) := by
  refine .cons hne ?_
  rw [hnext]
  exact h.congr hagree

/-- The part of a chain behind one of its nodes. -/
theorem IsChain.suffix {head i : ℕ} {a b : List ℕ} (h : IsChain next head (a ++ i :: b)) :
    IsChain next (next i) b := by
  induction a generalizing head with
  | nil => exact h.head_eq.2.2
  | cons x a ih => exact ih h.head_eq.2.2

/-- The node that is followed by a node of the chain. -/
theorem IsChain.next_eq {head p i : ℕ} {a b : List ℕ} (h : IsChain next head (a ++ p :: i :: b)) :
    next p = i := by
  have hsuffix := h.suffix
  exact hsuffix.head_eq.1

/-- **A node taken out of the middle**: its predecessor is made to lead to what follows it. -/
theorem IsChain.unlink {head p i : ℕ} {a b : List ℕ} (h : IsChain next head (a ++ p :: i :: b))
    (hp : next' p = next i) (hagree : ∀ j ∈ a ++ b, next' j = next j) :
    IsChain next' head (a ++ p :: b) := by
  induction a generalizing head with
  | nil =>
      obtain ⟨rfl, hne, htail⟩ := h.head_eq
      refine .cons hne ?_
      rw [hp]
      exact htail.head_eq.2.2.congr hagree
  | cons x a ih =>
      obtain ⟨rfl, hne, htail⟩ := h.head_eq
      refine .cons hne ?_
      rw [hagree _ List.mem_cons_self]
      exact ih htail fun j hj => hagree j (List.mem_cons_of_mem _ hj)

/-- A chain has no node twice. -/
theorem IsChain.nodup {head : ℕ} {l : List ℕ} (h : IsChain next head l) : l.Nodup := by
  induction h with
  | nil => exact List.nodup_nil
  | @cons i l _ htail ih =>
      -- a node that comes again would have two chains behind it, one within the other
      refine List.nodup_cons.mpr ⟨fun hmem => ?_, ih⟩
      obtain ⟨a, b, rfl⟩ := List.append_of_mem hmem
      have hlen := congrArg List.length (htail.suffix.unique htail)
      rw [List.length_append, List.length_cons] at hlen
      omega

end Chain

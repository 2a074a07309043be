import Mathlib.Data.Nat.Notation

set_option autoImplicit false

/-! # Operations batched into transactions

Operations work on a current state and are committed several at a time. One that fails alone in its
transaction is taken back, one that fails behind others is committed with them. -/

namespace Batching

variable {σ ε : Type}

/-- The current state, the one the last commit left, and the operations since. Without a journal
    nothing can be taken back. -/
structure Batch (σ : Type) where
  journal : Bool
  cur : σ
  disk : σ
  ops : ℕ
  size : ℕ

/-- How the transaction fares: whether it is too large to go on with, and whether its commit, or the
    flush behind the commit, fails. -/
structure Fate (ε : Type) where
  full : Bool
  commit : Option ε
  flush : Option ε

namespace Batch

def commit (b : Batch σ) : Batch σ := { b with disk := b.cur, ops := 0 }

def abort (b : Batch σ) : Batch σ :=
  if b.journal = true then { b with cur := b.disk, ops := 0 } else { b with ops := 0 }

/-- The end of an operation, with its error if it has one. -/
def finish (b : Batch σ) (t : Fate ε) : Option ε → Option ε × Batch σ
  | some e =>
      if b.ops = 0 then (some e, b.abort)
      else
        match t.commit with
        | some ce => (some ce, b.abort)
        | none => (some e, b.commit)
  | none =>
      let b := { b with ops := b.ops + 1 }
      if b.ops < b.size ∧ t.full = false then (none, b)
      else
        match t.commit with
        | some ce => (some ce, b.abort)
        | none => (t.flush, b.commit)

/-- The batch with another current state. -/
def set (b : Batch σ) (s : σ) : Batch σ := { b with cur := s }

@[simp] theorem set_cur (b : Batch σ) (s : σ) : (b.set s).cur = s := rfl

@[simp] theorem set_disk (b : Batch σ) (s : σ) : (b.set s).disk = b.disk := rfl

@[simp] theorem set_journal (b : Batch σ) (s : σ) : (b.set s).journal = b.journal := rfl

@[simp] theorem set_ops (b : Batch σ) (s : σ) : (b.set s).ops = b.ops := rfl

@[simp] theorem commit_cur (b : Batch σ) : b.commit.cur = b.cur := rfl

theorem abort_cur (b : Batch σ) : b.abort.cur = if b.journal = true then b.disk else b.cur := by
  simp only [abort]
  split
  · rfl
  · rfl

/-- The end of an operation leaves the current state, or takes it back to the last commit. -/
theorem finish_cur (b : Batch σ) (t : Fate ε) (r : Option ε) :
    (b.finish t r).2.cur = b.cur ∨
      (b.journal = true ∧ (b.finish t r).2.cur = b.disk ∧ (b.finish t r).1 ≠ none) := by
  have habort : ∀ b : Batch σ, b.abort.cur = b.cur ∨ (b.journal = true ∧ b.abort.cur = b.disk) := by
    intro b
    rw [abort_cur]
    split
    · next hj => exact .inr ⟨hj, rfl⟩
    · exact .inl rfl
  cases r with
  | some e =>
      simp only [finish]
      split
      · exact (habort b).imp_right fun h => ⟨h.1, h.2, by simp⟩
      · cases t.commit with
        | some ce => exact (habort b).imp_right fun h => ⟨h.1, h.2, by simp⟩
        | none => exact .inl rfl
  | none =>
      simp only [finish]
      split
      · exact .inl rfl
      · cases t.commit with
        | some ce =>
            exact (habort { b with ops := b.ops + 1 }).imp_right fun h => ⟨h.1, h.2, by simp⟩
        | none => exact .inl rfl

/-- As long as commits do not fail, what is taken back is an operation that fails alone. -/
theorem finish_cur_of_commit (b : Batch σ) {t : Fate ε} (ht : t.commit = none) (r : Option ε) :
    (b.finish t r).2.cur =
      if b.journal = true ∧ b.ops = 0 ∧ r ≠ none then b.disk else b.cur := by
  cases r with
  | none =>
      simp only [finish, ht]
      split
      · simp
      · simp
  | some e =>
      simp only [finish, ht]
      by_cases hops : b.ops = 0
      · simp [hops, abort_cur]
      · simp [hops]

/-- An operation that succeeds is not taken back. -/
theorem finish_ok {b b' : Batch σ} {t : Fate ε} {r : Option ε} (h : b.finish t r = (none, b')) :
    b'.cur = b.cur := by
  rcases b.finish_cur t r with hcur | ⟨-, -, hne⟩
  · rw [h] at hcur
    exact hcur
  · rw [h] at hne
    exact absurd rfl hne

/-- With a journal, nothing waits for a commit behind the end of an operation but what is counted. -/
theorem finish_clean (b : Batch σ) (t : Fate ε) (r : Option ε)
    (hjournal : (b.finish t r).2.journal = true) (hops : (b.finish t r).2.ops = 0) :
    (b.finish t r).2.disk = (b.finish t r).2.cur := by
  have habort : ∀ b : Batch σ, b.abort.journal = true → b.abort.disk = b.abort.cur := by
    intro b hb
    simp only [abort] at hb ⊢
    split at hb
    · next hj => simp [hj]
    · next hj => exact absurd hb hj
  cases r with
  | some e =>
      simp only [finish] at hjournal hops ⊢
      split at hjournal
      · next hzero =>
          rw [if_pos hzero]
          exact habort b hjournal
      · next hzero =>
          rw [if_neg hzero]
          cases hcommit : t.commit with
          | some ce =>
              rw [hcommit] at hjournal
              exact habort b hjournal
          | none => rfl
  | none =>
      simp only [finish] at hjournal hops ⊢
      split at hjournal
      · next hroom =>
          rw [if_pos hroom] at hops
          exact absurd hops (Nat.succ_ne_zero _)
      · next hroom =>
          rw [if_neg hroom]
          cases hcommit : t.commit with
          | some ce =>
              rw [hcommit] at hjournal
              exact habort _ hjournal
          | none => rfl

/-- As long as commits do not fail, an operation that fails reports its own error. -/
theorem finish_some (b : Batch σ) {t : Fate ε} (ht : t.commit = none) (e : ε) :
    (b.finish t (some e)).1 = some e := by
  simp only [finish, ht]
  split
  · rfl
  · rfl

/-- Where commits and flushes do not fail, an operation reports what it came to. -/
theorem finish_result (b : Batch σ) {t : Fate ε} (ht : t.commit = none) (hflush : t.flush = none)
    (r : Option ε) : (b.finish t r).1 = r := by
  cases r with
  | some e => exact b.finish_some ht e
  | none =>
      simp only [finish, ht, hflush]
      split
      · rfl
      · rfl

/-- What is reported as done has not failed. -/
theorem finish_none {b : Batch σ} {t : Fate ε} {r : Option ε} (h : (b.finish t r).1 = none) :
    r = none := by
  cases r with
  | none => rfl
  | some e =>
      simp only [finish] at h
      split at h
      · cases h
      · split at h
        · cases h
        · cases h

end Batch

end Batching

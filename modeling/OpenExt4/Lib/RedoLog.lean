import Mathlib.Data.List.Induction
import OpenExt4.Lib.Writes

set_option autoImplicit false

/-! # A redo log with revocations

Each transaction writes some addresses and revokes some. The plain way to redo a log is in order, a
revocation dropping what the log has for its address so far. The other way is to find for each
address the last transaction that revokes it, and then to make the writes that come later only. Both
end the same. -/

namespace RedoLog

variable {α β : Type} [DecidableEq α]

/-- A transaction. Its revocations count behind its writes. -/
structure Trans (α β : Type) where
  writes : List (α × β)
  revokes : List α

/-! ## In order -/

/-- What the log has for each address, after one transaction more. -/
def Trans.redo (t : Trans α β) (o : α → Option β) : α → Option β := fun a =>
  if a ∈ t.revokes then none else Writes.apply (t.writes.map fun w => (w.1, some w.2)) o a

/-- What the log has for each address. -/
def redo (ts : List (Trans α β)) : α → Option β := ts.foldl (fun o t => t.redo o) fun _ => none

/-- The memory with what the log has. -/
def overlay (o : α → Option β) (m : α → β) : α → β := fun a => (o a).getD (m a)

/-! ## By the last revocation -/

/-- The number of the last transaction that revokes an address, from number `i` on. -/
def lastRevoke : ℕ → List (Trans α β) → (α → Option ℕ) → α → Option ℕ
  | _, [], root => root
  | i, t :: ts, root => lastRevoke (i + 1) ts fun a => if a ∈ t.revokes then some i else root a

/-- A write of transaction `i` to `a` is not revoked. -/
def Live (root : α → Option ℕ) (i : ℕ) (a : α) : Prop := ∀ j ∈ root a, j < i

instance (root : α → Option ℕ) (i : ℕ) (a : α) : Decidable (Live root i a) :=
  inferInstanceAs (Decidable (∀ j ∈ root a, j < i))

/-- The writes that are not revoked. -/
def kept (root : α → Option ℕ) : ℕ → List (Trans α β) → List (α × β)
  | _, [] => []
  | i, t :: ts => t.writes.filter (fun w => Live root i w.1) ++ kept root (i + 1) ts

/-! ## Only the writes to an address matter for it -/

variable {m m' : α → β} {a : α}

/-- The writes to `a`. -/
def writesTo (a : α) (ws : List (α × β)) : List (α × β) := ws.filter fun w => w.1 = a

theorem apply_congr_memory (ws : List (α × β)) (h : m a = m' a) :
    Writes.apply ws m a = Writes.apply ws m' a := by
  induction ws generalizing m m' with
  | nil => exact h
  | cons w ws ih =>
      rw [Writes.apply_cons, Writes.apply_cons]
      refine ih ?_
      by_cases hw : a = w.1
      · rw [hw, Function.update_self, Function.update_self]
      · rw [Function.update_of_ne hw, Function.update_of_ne hw, h]

theorem apply_writesTo (ws : List (α × β)) (m : α → β) :
    Writes.apply (writesTo a ws) m a = Writes.apply ws m a := by
  induction ws generalizing m with
  | nil => rfl
  | cons w ws ih =>
      by_cases hw : w.1 = a
      · rw [writesTo, List.filter_cons_of_pos (by simpa using hw), Writes.apply_cons,
          Writes.apply_cons]
        exact ih _
      · rw [writesTo, List.filter_cons_of_neg (by simpa using hw), Writes.apply_cons]
        exact (ih m).trans (apply_congr_memory ws (Function.update_of_ne (Ne.symm hw) ..).symm)

theorem apply_congr_writesTo {ws vs : List (α × β)} (h : writesTo a ws = writesTo a vs)
    (m : α → β) : Writes.apply ws m a = Writes.apply vs m a := by
  rw [← apply_writesTo ws, ← apply_writesTo vs, h]

/-- Writes to the contents and writes to what the log has. -/
theorem getD_apply_some (ws : List (α × β)) (o : α → Option β) (m : α → β) :
    (Writes.apply (ws.map fun w => (w.1, some w.2)) o a).getD (m a) =
      Writes.apply ws (overlay o m) a := by
  induction ws generalizing o with
  | nil => rfl
  | cons w ws ih =>
      rw [List.map_cons, Writes.apply_cons, Writes.apply_cons, ih]
      refine apply_congr_memory ws ?_
      by_cases hw : a = w.1
      · rw [hw, overlay, Function.update_self, Function.update_self]
        rfl
      · rw [overlay, Function.update_of_ne hw, Function.update_of_ne hw, overlay]

/-! ## A transaction more -/

variable {ts : List (Trans α β)} {t : Trans α β} {root root' : α → Option ℕ} {i : ℕ}

theorem lastRevoke_snoc : lastRevoke i (ts ++ [t]) root a =
    if a ∈ t.revokes then some (i + ts.length) else lastRevoke i ts root a := by
  induction ts generalizing i root with
  | nil => rfl
  | cons t' ts ih =>
      rw [List.cons_append, lastRevoke, ih, lastRevoke, List.length_cons, Nat.add_assoc,
        Nat.add_comm 1]

omit [DecidableEq α] in
theorem kept_snoc : kept root i (ts ++ [t]) =
    kept root i ts ++ t.writes.filter (fun w => Live root (i + ts.length) w.1) := by
  induction ts generalizing i with
  | nil => simp only [kept, List.nil_append, List.append_nil, List.length_nil, Nat.add_zero]
  | cons t' ts ih =>
      rw [List.cons_append, kept, ih, kept, List.append_assoc, List.length_cons, Nat.add_assoc,
        Nat.add_comm 1]

theorem redo_snoc : redo (ts ++ [t]) = t.redo (redo ts) := by
  rw [redo, List.foldl_append]
  rfl

/-- The last revocation is by one of the transactions. -/
theorem lastRevoke_lt {j : ℕ} (h : lastRevoke 0 ts (fun _ => none) a = some j) :
    j < ts.length := by
  induction ts using List.reverseRecOn with
  | nil => simp [lastRevoke] at h
  | append_singleton ts t ih =>
      rw [lastRevoke_snoc] at h
      rw [List.length_append, List.length_singleton]
      split at h
      · have := Option.some.inj h
        omega
      · exact Nat.lt_succ_of_lt (ih h)

/-- The writes kept to an address depend on its own revocations. -/
theorem writesTo_kept_congr (h : root a = root' a) :
    writesTo a (kept root i ts) = writesTo a (kept root' i ts) := by
  induction ts generalizing i with
  | nil => rfl
  | cons t ts ih =>
      have hlive : ∀ w ∈ t.writes,
          (decide (w.1 = a) && decide (Live root i w.1)) =
            (decide (w.1 = a) && decide (Live root' i w.1)) := by
        intro w _
        by_cases hw : w.1 = a
        · simp only [Live, hw, h]
        · simp only [hw, decide_false, Bool.false_and]
      unfold writesTo at ih ⊢
      rw [kept, kept, List.filter_append, List.filter_append, List.filter_filter,
        List.filter_filter, List.filter_congr hlive, ih]

/-- Nothing is kept before the last revocation. -/
theorem writesTo_kept_revoked {j : ℕ} (h : root a = some j) (hi : i + ts.length ≤ j + 1) :
    writesTo a (kept root i ts) = [] := by
  induction ts generalizing i with
  | nil => rfl
  | cons t ts ih =>
      rw [List.length_cons] at hi
      have hrest := ih (i := i + 1) (by omega)
      unfold writesTo at hrest ⊢
      rw [kept, List.filter_append, hrest, List.append_nil, List.filter_filter,
        List.filter_eq_nil_iff]
      intro w _ hw
      simp only [Bool.and_eq_true, decide_eq_true_eq] at hw
      have := hw.2 j (by rw [hw.1, h]; rfl)
      omega

/-! ## Both ways end the same -/

/-- The writes the log keeps. -/
def keptWrites (ts : List (Trans α β)) : List (α × β) :=
  kept (lastRevoke 0 ts fun _ => none) 0 ts

/-- What is kept to an address, with a transaction more. -/
theorem writesTo_keptWrites_snoc : writesTo a (keptWrites (ts ++ [t])) =
    if a ∈ t.revokes then [] else writesTo a (keptWrites ts) ++ writesTo a t.writes := by
  by_cases hrev : a ∈ t.revokes
  · rw [if_pos hrev]
    refine writesTo_kept_revoked (j := 0 + ts.length) ?_ ?_
    · rw [lastRevoke_snoc, if_pos hrev]
    · rw [List.length_append, List.length_singleton]
      omega
  · have hroot : lastRevoke 0 (ts ++ [t]) (fun _ => none) a =
        lastRevoke 0 ts (fun _ => none) a := by
      rw [lastRevoke_snoc, if_neg hrev]
    have hlive : ∀ w ∈ t.writes,
        (decide (w.1 = a) &&
          decide (Live (lastRevoke 0 (ts ++ [t]) fun _ => none) (0 + ts.length) w.1)) =
            decide (w.1 = a) := by
      intro w _
      by_cases hw : w.1 = a
      · have hlt : Live (lastRevoke 0 (ts ++ [t]) fun _ => none) (0 + ts.length) a := by
          intro j hj
          rw [hroot] at hj
          have := lastRevoke_lt hj
          omega
        rw [hw]
        simp only [hlt, decide_true, Bool.and_true]
      · simp only [hw, decide_false, Bool.false_and]
    rw [if_neg hrev, keptWrites, kept_snoc, writesTo, List.filter_append, List.filter_filter,
      List.filter_congr hlive]
    exact congrArg (· ++ writesTo a t.writes) (writesTo_kept_congr hroot)

/-- **The writes that are not revoked leave what the log in order leaves.** -/
theorem apply_keptWrites (ts : List (Trans α β)) (m : α → β) :
    Writes.apply (keptWrites ts) m = overlay (redo ts) m := by
  funext a
  induction ts using List.reverseRecOn with
  | nil => rfl
  | append_singleton ts t ih =>
      rw [← apply_writesTo, writesTo_keptWrites_snoc, redo_snoc, overlay, Trans.redo]
      by_cases hrev : a ∈ t.revokes
      · rw [if_pos hrev, if_pos hrev]
        rfl
      · rw [if_neg hrev, if_neg hrev, getD_apply_some, Writes.apply_append]
        refine (apply_writesTo t.writes _).trans (apply_congr_memory t.writes ?_)
        exact (apply_writesTo (keptWrites ts) m).trans ih

/-- The log has something for every address that is written, or that it has something for. -/
theorem apply_some_ne_none {ws : List (α × β)} {o : α → Option β}
    (h : o a ≠ none ∨ a ∈ ws.map Prod.fst) :
    Writes.apply (ws.map fun w => (w.1, some w.2)) o a ≠ none := by
  induction ws generalizing o with
  | nil => exact h.resolve_right List.not_mem_nil
  | cons w ws ih =>
      rw [List.map_cons, Writes.apply_cons]
      refine ih ?_
      by_cases hw : a = w.1
      · rw [hw, Function.update_self]
        exact .inl (Option.some_ne_none _)
      · rw [Function.update_of_ne hw]
        exact h.imp_right fun hmem => (List.mem_cons.mp hmem).resolve_left hw

theorem mem_map_fst {ws : List (α × β)} : a ∈ ws.map Prod.fst ↔ writesTo a ws ≠ [] := by
  rw [Ne, writesTo, List.filter_eq_nil_iff, List.mem_map]
  simp

/-- The log has nothing for an address that is not written. -/
theorem redo_eq_none (h : ∀ t ∈ ts, a ∉ t.writes.map Prod.fst) : redo ts a = none := by
  induction ts using List.reverseRecOn with
  | nil => rfl
  | append_singleton ts t ih =>
      rw [List.forall_mem_append, List.forall_mem_singleton] at h
      rw [redo_snoc, Trans.redo]
      split
      · rfl
      · rw [Writes.apply_of_notMem]
        · exact ih h.1
        · rw [List.map_map]
          exact h.2

/-- The log has something for every address with a write that is kept. -/
theorem redo_ne_none (h : a ∈ (keptWrites ts).map Prod.fst) : redo ts a ≠ none := by
  rw [mem_map_fst] at h
  induction ts using List.reverseRecOn with
  | nil => exact absurd rfl h
  | append_singleton ts t ih =>
      rw [writesTo_keptWrites_snoc] at h
      split at h
      · exact absurd rfl h
      · next hrev =>
          rw [redo_snoc, Trans.redo, if_neg hrev]
          refine apply_some_ne_none ?_
          by_cases hold : writesTo a (keptWrites ts) = []
          · rw [hold, List.nil_append] at h
            exact .inr (mem_map_fst.mpr h)
          · exact .inl (ih hold)

end RedoLog

import Mathlib.Data.List.Nodup
import Mathlib.Logic.Function.Basic

set_option autoImplicit false

/-! # Lists of writes

A memory is a function from addresses to contents, a list of writes is applied to it from the
left, so the last write to an address counts. -/

namespace Writes

variable {α β : Type} [DecidableEq α]

/-- The memory after the writes, first to last. -/
def apply (ws : List (α × β)) (m : α → β) : α → β :=
  ws.foldl (fun m w => Function.update m w.1 w.2) m

@[simp] theorem apply_nil (m : α → β) : apply ([] : List (α × β)) m = m := rfl

@[simp] theorem apply_cons (w : α × β) (ws : List (α × β)) (m : α → β) :
    apply (w :: ws) m = apply ws (Function.update m w.1 w.2) := rfl

theorem apply_append (ws vs : List (α × β)) (m : α → β) :
    apply (ws ++ vs) m = apply vs (apply ws m) := List.foldl_append ..

/-- An address nobody writes keeps its contents. -/
theorem apply_of_notMem {ws : List (α × β)} {m : α → β} {a : α} (h : a ∉ ws.map Prod.fst) :
    apply ws m a = m a := by
  induction ws generalizing m with
  | nil => rfl
  | cons w rest ih =>
      simp only [List.map_cons, List.mem_cons, not_or] at h
      rw [apply_cons, ih h.2, Function.update_of_ne h.1]

/-- A write to an address the list does not touch may as well come after the list. -/
theorem apply_update_comm {ws : List (α × β)} {m : α → β} {a : α} {v : β}
    (h : a ∉ ws.map Prod.fst) :
    apply ws (Function.update m a v) = Function.update (apply ws m) a v := by
  induction ws generalizing m with
  | nil => rfl
  | cons w rest ih =>
      simp only [List.map_cons, List.mem_cons, not_or] at h
      rw [apply_cons, apply_cons, Function.update_comm h.1, ih h.2]

end Writes

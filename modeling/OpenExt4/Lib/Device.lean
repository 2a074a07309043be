import Mathlib.Data.Nat.Notation
import Mathlib.Order.Basic

set_option autoImplicit false

/-! # A device of bytes

A device is a function from addresses to bytes. A command writes a stretch of it, and one that fails
may have written any part of the stretch. -/

namespace ByteDevice

variable {α : Type}

/-- The device with `n` bytes of `data` at `a`, as far as they land. -/
def put (dev : ℕ → α) (a n : ℕ) (data : ℕ → α) (landed : ℕ → Bool) : ℕ → α :=
  fun x => if a ≤ x ∧ x < a + n ∧ landed x = true then data (x - a) else dev x

/-- How a command fares: it lands, or it fails with an error and part of its bytes down. -/
inductive Landing (ε : Type) where
  | lands
  | fails (e : ε) (landed : ℕ → Bool)

variable {ε : Type}

/-- Where the bytes of a command land. -/
def Landing.landed : Landing ε → ℕ → Bool
  | .lands => fun _ => true
  | .fails _ landed => landed

/-- A command that writes `n` bytes of `data` at `a`. -/
def writeAt (dev : ℕ → α) (l : Landing ε) (a n : ℕ) (data : ℕ → α) : Option ε × (ℕ → α) :=
  match l with
  | .lands => (none, put dev a n data fun _ => true)
  | .fails e landed => (some e, put dev a n data landed)

@[simp] theorem writeAt_lands (dev : ℕ → α) (a n : ℕ) (data : ℕ → α) :
    writeAt dev (.lands : Landing ε) a n data = (none, put dev a n data fun _ => true) := rfl

@[simp] theorem writeAt_fails (dev : ℕ → α) (e : ε) (landed : ℕ → Bool) (a n : ℕ) (data : ℕ → α) :
    writeAt dev (.fails e landed) a n data = (some e, put dev a n data landed) := rfl

theorem writeAt_snd (dev : ℕ → α) (l : Landing ε) (a n : ℕ) (data : ℕ → α) :
    (writeAt dev l a n data).2 = put dev a n data l.landed := by
  cases l <;> rfl

theorem put_outside {dev : ℕ → α} {a n : ℕ} {data : ℕ → α} {landed : ℕ → Bool} {x : ℕ}
    (h : x < a ∨ a + n ≤ x) : put dev a n data landed x = dev x := by
  have hout : ¬ (a ≤ x ∧ x < a + n ∧ landed x = true) := by omega
  rw [put, if_neg hout]

theorem put_inside {dev : ℕ → α} {a n i : ℕ} {data : ℕ → α} (hi : i < n) :
    put dev a n data (fun _ => true) (a + i) = data i := by
  have hin : a ≤ a + i ∧ a + i < a + n ∧ true = true := ⟨Nat.le_add_right _ _, by omega, rfl⟩
  rw [put, if_pos hin, Nat.add_sub_cancel_left]

/-- A command leaves every byte outside of its stretch alone, whether it fails or not. -/
theorem writeAt_outside {dev : ℕ → α} {l : Landing ε} {a n : ℕ} {data : ℕ → α} {x : ℕ}
    (h : x < a ∨ a + n ≤ x) : (writeAt dev l a n data).2 x = dev x := by
  cases l with
  | lands => rw [writeAt_lands]; dsimp only; exact put_outside h
  | fails e landed => rw [writeAt_fails]; dsimp only; exact put_outside h

/-- After a command that does not fail its bytes are on the device. -/
theorem writeAt_inside {dev : ℕ → α} {l : Landing ε} {a n i : ℕ} {data : ℕ → α}
    (hok : (writeAt dev l a n data).1 = none) (hi : i < n) :
    (writeAt dev l a n data).2 (a + i) = data i := by
  cases l with
  | lands => rw [writeAt_lands]; exact put_inside hi
  | fails e landed => simp at hok

end ByteDevice

import OpenExt4.Lib.Device

set_option autoImplicit false

/-! # Transfers in pieces

A transfer that reports no error has put its bytes where they belong; one that reports an error has
put some of them there. A transfer made of pieces is one, and so is writing back a window of the
device with some bytes replaced. -/

namespace ByteDevice

variable {α ε : Type}

/-- What comes of a transfer of `n` bytes of `data` to `a`. -/
structure Wrote (dev : ℕ → α) (a n : ℕ) (data : ℕ → α) (out : Option ε × (ℕ → α)) : Prop where
  done : out.1 = none → out.2 = put dev a n data fun _ => true
  torn : ∀ x, out.2 x = dev x ∨ out.2 x = put dev a n data (fun _ => true) x

variable {dev : ℕ → α} {a n m : ℕ} {data : ℕ → α} {out out' : Option ε × (ℕ → α)}

/-- A transfer touches nothing else, whether it reports an error or not. -/
theorem Wrote.frame (h : Wrote dev a n data out) {x : ℕ} (hx : x < a ∨ a + n ≤ x) :
    out.2 x = dev x := by
  rcases h.torn x with hold | hnew
  · exact hold
  · rw [hnew, put_outside hx]

theorem writeAt_wrote (l : Landing ε) : Wrote dev a n data (writeAt dev l a n data) where
  done := by
    intro h
    cases l with
    | lands => rfl
    | fails e landed => simp at h
  torn x := by
    rw [writeAt_snd]
    by_cases hin : a ≤ x ∧ x < a + n
    · by_cases hlanded : l.landed x = true
      · exact Or.inr (by simp [put, hin, hlanded])
      · exact Or.inl (by simp [put, hlanded])
    · exact Or.inl (put_outside (by omega))

@[simp] theorem put_zero (landed : ℕ → Bool) : put dev a 0 data landed = dev := by
  funext x
  exact put_outside (by omega)

theorem put_congr {data' : ℕ → α} {landed : ℕ → Bool} (h : ∀ i < n, data i = data' i) :
    put dev a n data landed = put dev a n data' landed := by
  funext x
  unfold put
  by_cases hin : a ≤ x ∧ x < a + n ∧ landed x = true
  · rw [if_pos hin, if_pos hin, h (x - a) (by omega)]
  · rw [if_neg hin, if_neg hin]

/-- A buffer that is filled from its start on. -/
theorem put_start {i : ℕ} (hi : i < n) : put dev 0 n data (fun _ => true) i = data i := by
  have hinside : put dev 0 n data (fun _ => true) (0 + i) = data i := put_inside hi
  rwa [Nat.zero_add] at hinside

/-- Nothing is a transfer of no bytes. -/
theorem Wrote.nothing : Wrote dev a 0 data ((none : Option ε), dev) :=
  ⟨fun _ => (put_zero _).symm, fun _ => Or.inl rfl⟩

/-- A transfer that did not happen. -/
theorem Wrote.refused (e : ε) : Wrote dev a n data (some e, dev) :=
  ⟨fun h => by simp at h, fun _ => Or.inl rfl⟩

theorem put_append : put (put dev a n data fun _ => true) (a + n) m (fun i => data (n + i))
    (fun _ => true) = put dev a (n + m) data fun _ => true := by
  funext x
  by_cases hfirst : a ≤ x ∧ x < a + n
  · obtain ⟨i, rfl⟩ : ∃ i, x = a + i := ⟨x - a, by omega⟩
    rw [put_outside (by omega), put_inside (by omega), put_inside (by omega)]
  · by_cases hrest : a + n ≤ x ∧ x < a + n + m
    · obtain ⟨i, rfl⟩ : ∃ i, x = a + n + i := ⟨x - (a + n), by omega⟩
      rw [put_inside (by omega), Nat.add_assoc, put_inside (by omega)]
    · rw [put_outside (by omega), put_outside (by omega), put_outside (by omega)]

/-- Some of a transfer is down, or all of the first part of it. -/
theorem put_prefix (x : ℕ) : put dev a n data (fun _ => true) x = dev x ∨
    put dev a n data (fun _ => true) x = put dev a (n + m) data (fun _ => true) x := by
  by_cases hin : a ≤ x ∧ x < a + n
  · obtain ⟨i, rfl⟩ : ∃ i, x = a + i := ⟨x - a, by omega⟩
    exact Or.inr (by rw [put_inside (by omega), put_inside (by omega)])
  · exact Or.inl (put_outside (by omega))

/-- A transfer that did not go well, and the one behind it that was not made. -/
theorem Wrote.stopped (h : Wrote dev a n data out) (hfail : out.1 ≠ none) :
    Wrote dev a (n + m) data out where
  done hok := absurd hok hfail
  torn x := by
    rcases h.torn x with hold | hnew
    · exact Or.inl hold
    · rw [hnew]
      exact put_prefix x

/-- A transfer that went well, and the one behind it. -/
theorem Wrote.append (h : Wrote dev a n data out) (hok : out.1 = none)
    (h' : Wrote out.2 (a + n) m (fun i => data (n + i)) out') : Wrote dev a (n + m) data out' where
  done := by
    intro hok'
    rw [h'.done hok', h.done hok, put_append]
  torn x := by
    rcases h'.torn x with hold | hnew
    · rw [hold, h.done hok]
      exact put_prefix x
    · rw [hnew, h.done hok, put_append]
      exact Or.inr rfl

theorem put_window {len shift : ℕ} (hin : shift + n ≤ len) :
    put dev a len (put (fun i => dev (a + i)) shift n data fun _ => true) (fun _ => true)
      = put dev (a + shift) n data fun _ => true := by
  funext x
  by_cases hwin : a ≤ x ∧ x < a + len
  · obtain ⟨i, rfl⟩ : ∃ i, x = a + i := ⟨x - a, by omega⟩
    rw [put_inside (by omega)]
    by_cases hbytes : shift ≤ i ∧ i < shift + n
    · obtain ⟨j, rfl⟩ : ∃ j, i = shift + j := ⟨i - shift, by omega⟩
      rw [put_inside (by omega), ← Nat.add_assoc, put_inside (by omega)]
    · rw [put_outside (by omega), put_outside (by omega)]
  · rw [put_outside (by omega), put_outside (by omega)]

/-- **A window of the device written back** with `n` bytes replaced from `shift` on. -/
theorem Wrote.window {len shift : ℕ} (hin : shift + n ≤ len)
    (h : Wrote dev a len (put (fun i => dev (a + i)) shift n data fun _ => true) out) :
    Wrote dev (a + shift) n data out :=
  ⟨fun hok => (h.done hok).trans (put_window hin), fun x => put_window (a := a) hin ▸ h.torn x⟩

/-- **Reading a window, replacing some of its bytes and writing it back** is a transfer of those
    bytes, whether the write goes well or not. -/
theorem readModifyWrite (l : Landing ε) (bounce : ℕ → α) {len shift : ℕ} (hin : shift + n ≤ len) :
    Wrote dev (a + shift) n data (writeAt dev l a len
      (put (put bounce 0 len (fun i => dev (a + i)) fun _ => true) shift n data fun _ => true)) := by
  have hsame : ∀ i < len,
      put (put bounce 0 len (fun i => dev (a + i)) fun _ => true) shift n data (fun _ => true) i
        = put (fun i => dev (a + i)) shift n data (fun _ => true) i := by
    intro i hi
    unfold put
    by_cases hbytes : shift ≤ i ∧ i < shift + n ∧ true = true
    · rw [if_pos hbytes, if_pos hbytes]
    · rw [if_neg hbytes, if_neg hbytes, if_pos ⟨Nat.zero_le _, by omega, rfl⟩, Nat.sub_zero]
  have hwrote := @writeAt_wrote _ _ dev a len
    (put (put bounce 0 len (fun i => dev (a + i)) fun _ => true) shift n data fun _ => true) l
  refine Wrote.window hin ⟨fun hok => ?_, fun x => ?_⟩
  · rw [hwrote.done hok, put_congr hsame]
  · rw [← put_congr hsame]
    exact hwrote.torn x

/-- Reading through a window. -/
theorem readThrough (bounce dst : ℕ → α) {pos len shift : ℕ} (hin : shift + n ≤ len) :
    put dst pos n (fun i => put bounce 0 len (fun i => dev (a + i)) (fun _ => true) (shift + i))
        (fun _ => true)
      = put dst pos n (fun i => dev (a + shift + i)) fun _ => true :=
  put_congr fun i hi => by rw [put_start (by omega), Nat.add_assoc]

end ByteDevice

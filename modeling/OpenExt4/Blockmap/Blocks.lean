import OpenExt4.Blockmap.Indirect

set_option autoImplicit false

/-! # One block of an inode

What getting, allocating and freeing one block does to an inode and the blocks of its volume. -/

namespace Blockmap

open Bytes

variable {bs : ℕ} {env : Env bs} {r r' : Ref bs} {b goal : ℕ}

/-! ## The parts below -/

/-- The allocator hands out blocks that are free, and that the device reads and the allocator takes
    back; the inode allocator takes the inode back. -/
structure Env.Sound (env : Env bs) : Prop where
  free : ∀ s g b, env.alloc s g = .ok b → b ≠ 0 ∧ s.inUse b = false
  works : ∀ s g b, env.alloc s g = .ok b → env.unread b = none ∧ env.refused b = none
  ino : env.freeIno = none

/-- A block size of the format. -/
def FormatSize (bs : ℕ) : Prop := 1024 ≤ bs ∧ bs ≤ 65536

theorem bind_ok {α β : Type} {x : Result bs α} {f : α → Result bs β} {y : β}
    (h : (x >>= f) = .ok y) : ∃ a, x = .ok a ∧ f a = .ok y := by
  cases x with
  | error e => cases h
  | ok a => exact ⟨a, rfl, h⟩

/-! ## Calls that succeed -/

theorem freeBlock_eq (h : env.refused b = none) : freeBlock env r b = .ok (r.given env b) := by
  rw [freeBlock, h]

theorem freeBlock_ok (h : freeBlock env r b = .ok r') : r' = r.given env b := by
  unfold freeBlock at h
  cases hrefused : env.refused b with
  | some e =>
      rw [hrefused] at h
      cases h
  | none =>
      rw [hrefused] at h
      cases h
      rfl

/-- A block with its buffer. -/
def Ref.loaded (r : Ref bs) (b : ℕ) : Ref bs :=
  { r with cached := Function.update r.cached b (some (r.look b)) }

theorem getBlock_eq (h : env.unread b = none) :
    getBlock env r b = .ok (r.look b, r.loaded b) := by
  rw [getBlock, h]
  rfl

theorem getBlock_ok {data : Buf bs} (h : getBlock env r b = .ok (data, r')) :
    data = r.look b ∧ r' = r.loaded b := by
  unfold getBlock at h
  cases hunread : env.unread b with
  | some e =>
      rw [hunread] at h
      cases h
  | none =>
      rw [hunread] at h
      cases h
      exact ⟨rfl, rfl⟩

/-- The inode with a block that was allocated. -/
def Ref.took (env : Env bs) (r : Ref bs) (b : ℕ) : Ref bs :=
  { r with
    inUse := Function.update r.inUse b true
    taken := r.taken ++ [b]
    inode := r.inode.setBlocksCount env
      ((r.inode.blocksCount + bs / EXT4_INODE_BLOCK_SIZE) % 2 ^ 64) }

theorem allocBlock_ok (h : allocBlock env r goal = .ok (b, r')) :
    env.alloc r.toSpace goal = .ok b ∧ r' = r.took env b := by
  unfold allocBlock at h
  cases halloc : env.alloc r.toSpace goal with
  | error e =>
      rw [halloc] at h
      cases h
  | ok x =>
      rw [halloc] at h
      cases h
      exact ⟨rfl, rfl⟩

theorem blocksFor_zero (hbs : FormatSize bs) : blocksFor bs 0 = 0 := by
  have hpos : 0 < bs := Nat.lt_of_lt_of_le (by decide) hbs.1
  have hzero : (0 + bs - 1) / bs = 0 := Nat.div_eq_of_lt (by omega)
  rw [blocksFor, hzero, Nat.zero_mod]

/-- In an empty inode the goal is the one of its group. -/
theorem allocNew_empty (hbs : FormatSize bs) (hempty : r.inode.size = 0)
    (h : allocNew env r = .ok (b, r')) :
    ∃ g, env.groupGoal = .ok g ∧ env.alloc r.toSpace g = .ok b ∧ r' = r.took env b := by
  obtain ⟨⟨g, r₁⟩, hgoal, halloc⟩ := bind_ok h
  unfold indirectFindGoal lastBlock at hgoal
  rw [hempty, blocksFor_zero hbs] at hgoal
  cases hgroup : env.groupGoal with
  | error e =>
      rw [hgroup] at hgoal
      cases hgoal
  | ok g' =>
      rw [hgroup] at hgoal
      cases hgoal
      exact ⟨_, rfl, allocBlock_ok halloc⟩

/-! ## What is in a block -/

theorem look_loaded (r : Ref bs) (b x : ℕ) : (r.loaded b).look x = r.look x := by
  change (Function.update r.cached b (some (r.look b)) x).getD (r.medium x) = r.look x
  rw [Function.update_apply]
  split
  · next heq =>
      rw [heq]
      rfl
  · rfl

theorem look_given {x : ℕ} (hne : x ≠ b) : (r.given env b).look x = r.look x := by
  change (Function.update r.cached b none x).getD (r.medium x) = r.look x
  rw [Function.update_of_ne hne]
  rfl

theorem look_setBlock (r : Ref bs) (b x : ℕ) (data : Buf bs) :
    (r.setBlock b data).look x = if x = b then data else r.look x := by
  change (Function.update r.cached b (some data) x).getD (r.medium x) = _
  rw [Function.update_apply]
  split <;> rfl

/-! ## Pointers of the inode -/

section Pointers

variable {inode : Inode} {j k fblock : ℕ}

theorem directBlock_set (hk : k < 15) (hfblock : fblock < 2 ^ 32) :
    (inode.setDirectBlock k fblock).directBlock k = fblock := by
  rw [Inode.directBlock, Inode.setDirectBlock, getLE_putLE (by omega)]
  exact Nat.mod_eq_of_lt hfblock

theorem directBlock_set_of_ne (hne : j ≠ k) :
    (inode.setDirectBlock k fblock).directBlock j = inode.directBlock j := by
  have hapart : 4 * j + 4 ≤ 4 * k ∨ 4 * k + 4 ≤ 4 * j := by omega
  simp only [Inode.directBlock, Inode.setDirectBlock, putLE]
  exact getLE_patch_of_disjoint hapart

end Pointers

end Blockmap

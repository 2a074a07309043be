import Mathlib.Algebra.Order.Ring.Nat

set_option autoImplicit false

/-! # Extents

An extent maps a run of logical blocks to as many physical ones. Its length and its state share one
field of 16 bits: up to `2 ^ 15` it is the length of a written extent, above that the length of an
unwritten one with the top bit set. -/

namespace Extents

/-- What the functions of the extent layer return when they fail. -/
inductive Errno where
  | EIO
  | ENOMEM
  | ENOSPC
  deriving DecidableEq, Repr

/-- Subtraction of 32-bit numbers. -/
def sub32 (a b : ℕ) : ℕ := (a + 2 ^ 32 - b) % 2 ^ 32

/-- `struct ext4_extent`, the physical block in one piece. -/
structure Extent where
  firstBlock : ℕ
  blockCount : ℕ
  start : ℕ
  firstBlock_lt : firstBlock < 2 ^ 32
  blockCount_lt : blockCount < 2 ^ 16
  start_lt : start < 2 ^ 48
  deriving DecidableEq

/-- The extent with these numbers stored in its fields. -/
def Extent.of (firstBlock blockCount start : ℕ) : Extent where
  firstBlock := firstBlock % 2 ^ 32
  blockCount := blockCount % 2 ^ 16
  start := start % 2 ^ 48
  firstBlock_lt := Nat.mod_lt _ (by decide)
  blockCount_lt := Nat.mod_lt _ (by decide)
  start_lt := Nat.mod_lt _ (by decide)

/-- `EXT_INIT_MAX_LEN` -/
def extInitMaxLen : ℕ := 2 ^ 15

/-- `EXT_UNWRITTEN_MAX_LEN` -/
def extUnwrittenMaxLen : ℕ := extInitMaxLen - 1

/-- `EXT_MAX_BLOCKS` -/
def extMaxBlocks : ℕ := 2 ^ 32 - 1

/-- `ext4_ext_get_actual_len` -/
def Extent.len (e : Extent) : ℕ :=
  if e.blockCount ≤ extInitMaxLen then e.blockCount else e.blockCount - extInitMaxLen

/-- `ext4_ext_is_unwritten`; a count of `0x8000` is that of a written extent. -/
def Extent.isUnwritten (e : Extent) : Bool := extInitMaxLen < e.blockCount

/-- `ext4_ext_mark_unwritten` -/
def Extent.markUnwritten (e : Extent) : Extent :=
  .of e.firstBlock (e.blockCount ||| extInitMaxLen) e.start

/-- `ext4_ext_mark_initialized` -/
def Extent.markInitialized (e : Extent) : Extent := .of e.firstBlock e.len e.start

/-- `IN_RANGE`, in 32-bit arithmetic. -/
def inRange (b first len : ℕ) : Bool := first ≤ b ∧ b ≤ (first + len + (2 ^ 32 - 1)) % 2 ^ 32

/-- The extent covers the block, as the lookups test it. -/
def Extent.covers (e : Extent) (b : ℕ) : Bool := inRange b e.firstBlock e.len

/-! ## What a lookup learns -/

/-- Where a walk down the tree ends: the extent it comes to, if the leaf has any, and what
    `ext4_ext_next_allocated_block` makes of the path. -/
structure Spot where
  extent : Option Extent
  next : ℕ

/-- What backs a block: the physical one, `0` for none, how far it goes on, and in which state. -/
structure Backing where
  fblk : ℕ
  run : ℕ
  unwritten : Bool
  deriving DecidableEq

/-- `ext4_extent_map_range` behind its lookup. -/
def mapRange (s : Spot) (iblock maxBlocks : ℕ) : Backing :=
  match s.extent with
  | none => ⟨0, 0, false⟩
  | some ex =>
    if ex.covers iblock then
      let allocated := sub32 ex.len (iblock - ex.firstBlock)
      ⟨iblock - ex.firstBlock + ex.start, if maxBlocks < allocated then maxBlocks else allocated,
        ex.isUnwritten⟩
    else ⟨0, 0, false⟩

/-- `ext4_extent_probe` behind its lookup. -/
def probe (s : Spot) (iblock : ℕ) : Backing :=
  let gap : Backing := ⟨0, if s.next = extMaxBlocks then 0 else sub32 s.next iblock, false⟩
  match s.extent with
  | none => gap
  | some ex =>
    if ex.covers iblock then
      ⟨ex.start + (iblock - ex.firstBlock), sub32 ex.len (iblock - ex.firstBlock), ex.isUnwritten⟩
    else gap

/-! ## Lengths -/

theorem Extent.len_lt (e : Extent) : e.len < 2 ^ 16 := by
  have := e.blockCount_lt
  unfold Extent.len
  split_ifs <;> omega

theorem Extent.len_le (e : Extent) : e.len ≤ extInitMaxLen := by
  have := e.blockCount_lt
  unfold Extent.len extInitMaxLen at *
  split_ifs <;> omega

/-- The test holds of the blocks of an extent, and of every block where it is empty at block 0. -/
theorem Extent.covers_iff {e : Extent} {b : ℕ} (hb : b < 2 ^ 32) : e.covers b = true ↔
    (e.firstBlock = 0 ∧ e.len = 0) ∨
      (e.firstBlock ≤ b ∧ b < e.firstBlock + e.len ∧ e.firstBlock + e.len ≤ 2 ^ 32) := by
  have hfirst := e.firstBlock_lt
  have hlen := e.len_lt
  simp only [Extent.covers, inRange, decide_eq_true_eq]
  omega

/-- How far the extent goes on from a block that it covers, in 32-bit arithmetic. -/
theorem Extent.rest_eq {e : Extent} {b : ℕ} (hle : e.firstBlock ≤ b) (hb : b < 2 ^ 32) :
    sub32 e.len (b - e.firstBlock) = sub32 (e.firstBlock + e.len) b := by
  have hlen := e.len_lt
  unfold sub32
  omega

end Extents

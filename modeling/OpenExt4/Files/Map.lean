import Mathlib.Data.Nat.Notation
import Mathlib.Logic.Function.Basic
import Mathlib.Tactic.Ring
import OpenExt4.Lib.Device

set_option autoImplicit false

/-! # Files and their blocks

The blocks of a regular file as the write path of `ext4_bridge.c` deals with them. The extent tree
is its map, from logical blocks to physical ones that are written or not; where an extent ends, what
the allocator hands out and what fails is for the caller to say, as the parts below decide it. -/

namespace Files

open ByteDevice

/-! ## The data -/

inductive Errno where
  | EPERM
  | EIO
  | ENOMEM
  | EISDIR
  | EINVAL
  | ENOSPC
  | EFBIG
  | ENOTSUP
  deriving DecidableEq, Repr

/-- The block size of a volume, 64 KiB at most. -/
structure BlockSize where
  val : ℕ
  pos : 0 < val
  le : val ≤ 65536

/-- What is kept in 32 bits. -/
def u32 (n : ℕ) : ℕ := n % 2 ^ 32

theorem u32_of_lt {n : ℕ} (h : n < 2 ^ 32) : u32 n = n := Nat.mod_eq_of_lt h

/-- The blocks that `n` bytes take. -/
def blocksFor (bs : BlockSize) (n : ℕ) : ℕ := (n + bs.val - 1) / bs.val

/-- Where a logical block is, and whether it is still unwritten. -/
structure Mapping where
  fblk : ℕ
  unwritten : Bool
  deriving DecidableEq

/-- The fields of an inode that the write path reads, and the blocks it has with their numbers in the
    file; of two entries for one number the first counts. `extents` is `EXT4_INODE_FLAG_EXTENTS`;
    without it the blocks are the ones of the block pointers. -/
structure File where
  directory : Bool
  immutable : Bool
  appendOnly : Bool
  extents : Bool
  links : ℕ
  delTime : ℕ
  mtime : ℕ
  ctime : ℕ
  size : ℕ
  blocks : List (ℕ × Mapping)

def File.map (f : File) (lblk : ℕ) : Option Mapping := f.blocks.lookup lblk

/-- A file with the blocks that are in use on its volume, and the device. -/
structure Disk where
  file : File
  used : ℕ → Bool
  dev : ℕ → UInt8

/-! ## Extents -/

/-- How many of the next `n` blocks from `lblk` on go on where `m` starts, in the same state. -/
def runOn (map : ℕ → Option Mapping) : ℕ → ℕ → Mapping → ℕ
  | 0, _, _ => 0
  | n + 1, lblk, m =>
      if map lblk = some m then runOn map n (lblk + 1) ⟨m.fblk + 1, m.unwritten⟩ + 1 else 0

theorem runOn_le (map : ℕ → Option Mapping) (n lblk : ℕ) (m : Mapping) :
    runOn map n lblk m ≤ n := by
  induction n generalizing lblk m with
  | zero => exact Nat.le_refl 0
  | succ n ih =>
      simp only [runOn]
      split
      · exact Nat.succ_le_succ (ih _ _)
      · exact Nat.zero_le _

theorem map_of_lt_runOn {map : ℕ → Option Mapping} {n lblk i : ℕ} {m : Mapping}
    (hi : i < runOn map n lblk m) : map (lblk + i) = some ⟨m.fblk + i, m.unwritten⟩ := by
  induction n generalizing lblk m i with
  | zero => simp [runOn] at hi
  | succ n ih =>
      simp only [runOn] at hi
      split at hi
      · next hfirst =>
          cases i with
          | zero => simpa using hfirst
          | succ i =>
              have hrest := ih (Nat.lt_of_succ_lt_succ hi)
              rw [Nat.add_right_comm] at hrest
              rw [← Nat.add_assoc, hrest]
              simp [Nat.add_right_comm, Nat.add_assoc]
      · simp at hi

theorem runOn_pos {map : ℕ → Option Mapping} {n lblk : ℕ} {m : Mapping} (hn : 0 < n)
    (hm : map lblk = some m) : 0 < runOn map n lblk m := by
  cases n with
  | zero => simp at hn
  | succ n =>
      simp only [runOn]
      rw [if_pos hm]
      exact Nat.succ_pos _

/-- `EXT_INIT_MAX_LEN` -/
def EXT_INIT_MAX_LEN : ℕ := 2 ^ 15

/-- The blocks that an extent has from one that is followed by `rest` more. -/
def extentLen (rest : ℕ) : ℕ := min (rest + 1) EXT_INIT_MAX_LEN

theorem extentLen_pos (rest : ℕ) : 0 < extentLen rest :=
  Nat.lt_min.mpr ⟨Nat.succ_pos _, by decide⟩

/-- `ext4_extent_map_range`: where the block is and how many of the `max` behind it its extent has,
    which reaches `rest` blocks further. Nothing for a hole, nor if the lookup fails; an inode with
    block pointers has no extent header. -/
def mapRange (f : File) (rest : Option ℕ) (lblk max : ℕ) : Option (Mapping × ℕ) :=
  if f.extents = false then none
  else
    match rest, f.map lblk with
    | some rest, some m =>
        if m.fblk ≠ 0 ∧ 0 < max then some (m, runOn f.map (min max (extentLen rest)) lblk m) else none
    | _, _ => none

/-- The `n` blocks from `lblk` on are no longer unwritten. -/
def File.markRun (f : File) (lblk n : ℕ) : File :=
  { f with
    blocks := f.blocks.map fun b =>
      (b.1, if lblk ≤ b.1 ∧ b.1 < lblk + n then ⟨b.2.fblk, false⟩ else b.2) }

theorem lookup_map {α : Type} (g : ℕ → α → α) (bs : List (ℕ × α)) (l : ℕ) :
    (bs.map fun b => (b.1, g b.1 b.2)).lookup l = (bs.lookup l).map (g l) := by
  induction bs with
  | nil => rfl
  | cons b rest ih =>
      obtain ⟨k, a⟩ := b
      by_cases hk : l = k
      · subst hk
        simp
      · have hne : (l == k) = false := by simpa using hk
        simp only [List.map_cons, List.lookup_cons, hne, ih]

theorem markRun_map (f : File) (lblk n l : ℕ) :
    (f.markRun lblk n).map l =
      if lblk ≤ l ∧ l < lblk + n then (f.map l).map fun m => ⟨m.fblk, false⟩ else f.map l := by
  have hmap := lookup_map (fun k m => if lblk ≤ k ∧ k < lblk + n then ⟨m.fblk, false⟩ else m)
    f.blocks l
  simp only [File.map, File.markRun, hmap]
  split
  · rfl
  · exact Option.map_id' ..

/-- `ext4_extent_mark_written` -/
def markWritten (f : File) (fails : Option Errno) (lblk n : ℕ) : Option Errno × File :=
  match fails with
  | some e => (some e, f)
  | none => (none, f.markRun lblk n)

/-- What the extent layer meets when it is asked for blocks: an error, with the part of a zeroing
    that landed; else how far an extent reaches and the block that the allocator finds. -/
structure Blocks where
  fails : Option (Errno × (ℕ → Bool))
  rest : ℕ
  fresh : ℕ

/-- The file with a block of its own at `lblk`. -/
def File.assign (f : File) (lblk fblk : ℕ) : File :=
  { f with blocks := (lblk, ⟨fblk, false⟩) :: f.blocks }

theorem assign_map (f : File) (lblk fblk : ℕ) :
    (f.assign lblk fblk).map = Function.update f.map lblk (some ⟨fblk, false⟩) := by
  funext l
  simp only [File.map, File.assign, List.lookup_cons]
  by_cases hl : l = lblk
  · subst hl
    simp
  · have hne : (l == lblk) = false := by simpa using hl
    rw [Function.update_of_ne hl, hne]
    rfl

/-- A block from the allocator, one that is not in use. -/
def allocBlock (d : Disk) (fresh : ℕ) : Except Errno Disk :=
  if fresh = 0 ∨ d.used fresh = true then .error Errno.ENOSPC
  else .ok { d with used := Function.update d.used fresh true }

/-- `ext4_extent_get_blocks` with `create`: the first block and how many. A hole gets one block, and
    an unwritten extent is zeroed and converted. -/
def getBlocks (bs : BlockSize) (d : Disk) (o : Blocks) (iblock max : ℕ) :
    Except (Errno × Disk) (ℕ × ℕ × Disk) :=
  match d.file.map iblock with
  | some m =>
      let n := runOn d.file.map (min max (extentLen o.rest)) iblock m
      match o.fails with
      | some (e, landed) =>
          if m.unwritten = true then
            .error (e, { d with dev := put d.dev (m.fblk * bs.val) (n * bs.val) (fun _ => 0) landed })
          else .error (e, d)
      | none =>
          if m.unwritten = true then
            .ok (m.fblk, n,
              { d with
                file := d.file.markRun iblock n
                dev := put d.dev (m.fblk * bs.val) (n * bs.val) (fun _ => 0) fun _ => true })
          else .ok (m.fblk, n, d)
  | none =>
      match o.fails with
      | some (e, _) => .error (e, d)
      | none =>
      match allocBlock d o.fresh with
      | .error e => .error (e, d)
      | .ok d' => .ok (o.fresh, 1, { d' with file := d.file.assign iblock o.fresh })

/-! ## Blocks of an inode -/

/-- `ext4_fs_init_inode_dblk_idx`: 0 for a hole that stays one. -/
def initInodeDblkIdx (bs : BlockSize) (d : Disk) (o : Blocks) (iblock : ℕ) :
    Except (Errno × Disk) (ℕ × Disk) :=
  if d.file.size = 0 then .ok (0, d)
  else if d.file.extents = true then
    match getBlocks bs d o iblock 1 with
    | .error e => .error e
    | .ok (fblk, _, d) => .ok (fblk, d)
  else
    match o.fails, d.file.map iblock with
    | some (e, _), _ => .error (e, d)
    | none, some m => .ok (m.fblk, d)
    | none, none => .ok (0, d)

/-- `ext4_inode_set_size` -/
def Disk.setSize (d : Disk) (size : ℕ) : Disk := { d with file := { d.file with size := size } }

/-- `touch` with `TOUCH_MTIME | TOUCH_CTIME`. -/
def Disk.touch (d : Disk) (now : ℕ) : Disk :=
  { d with file := { d.file with mtime := now, ctime := now } }

/-- `ext4_fs_append_inode_dblk` of an inode with block pointers. -/
def appendInodeDblk (bs : BlockSize) (d : Disk) (o : Blocks) : Except (Errno × Disk) (ℕ × Disk) :=
  let aligned := blocksFor bs d.file.size * bs.val
  let newBlockIdx := u32 (aligned / bs.val)
  match allocBlock d o.fresh with
  | .error e => .error (e, d)
  | .ok d' =>
  match o.fails with
  | some (e, _) => .error (e, d)
  | none =>
      .ok (o.fresh,
        { d' with file := d.file.assign newBlockIdx o.fresh }.setSize (aligned + bs.val))

/-- `ext4_fs_append_inode_dblk_range`: the first block and how many. -/
def appendInodeDblkRange (bs : BlockSize) (d : Disk) (o : Blocks) (maxBlocks : ℕ) :
    Except (Errno × Disk) (ℕ × ℕ × Disk) :=
  if d.file.extents = true then
    match getBlocks bs d o (u32 (blocksFor bs d.file.size)) maxBlocks with
    | .error e => .error e
    | .ok (fblk, got, d') => .ok (fblk, got, d'.setSize (d.file.size + got * bs.val))
  else
    match appendInodeDblk bs d o with
    | .error e => .error e
    | .ok (fblk, d) => .ok (fblk, 1, d)

/-! ## Preallocation and removal -/

/-- The file with a block that is unwritten at `lblk`. -/
def File.assignUnwritten (f : File) (lblk fblk : ℕ) : File :=
  { f with blocks := (lblk, ⟨fblk, true⟩) :: f.blocks }

/-- `ext4_extent_preallocate` of `count` blocks from `iblock` on, `done` of them gone past: how many it
    allocated. What is backed already is skipped to the end of its extent. -/
def preallocate (iblock count : ℕ) : List Blocks → ℕ → ℕ → Disk → Option Errno × ℕ × Disk
  | [], done, allocated, d =>
      (if count ≤ done then none else some Errno.ENOSPC, allocated, d)
  | o :: os, done, allocated, d =>
      if count ≤ done then (none, allocated, d)
      else
        match o.fails with
        | some (e, _) => (some e, allocated, d)
        | none =>
        let at_ := u32 (iblock + done)
        match d.file.map at_ with
        | some m =>
            preallocate iblock count os (done + runOn d.file.map (extentLen o.rest) at_ m) allocated d
        | none =>
            match allocBlock d o.fresh with
            | .error e => (some e, allocated, d)
            | .ok d' =>
                preallocate iblock count os (done + 1) (allocated + 1)
                  { d' with file := d.file.assignUnwritten at_ o.fresh }

/-- The file without the blocks that `p` names, which are free again. -/
def Disk.remove (d : Disk) (p : ℕ → Bool) : Disk :=
  { d with
    file := { d.file with blocks := d.file.blocks.filter fun b => !p b.1 }
    used := fun q =>
      d.used q &&
        !d.file.blocks.any fun b => p b.1 && decide (d.file.map b.1 = some b.2) && b.2.fblk == q }

/-- How a removal fares: its lookup may fail, and a part of the tree that it reads, behind which the
    blocks from a number on are left. -/
structure Removal where
  find : Option Errno
  stops : Option (Errno × ℕ)

/-- `ext4_extent_remove_space` from `start` to the end. It does nothing if there is no block at
    `start` itself. -/
def removeSpace (d : Disk) (o : Removal) (start : ℕ) : Option Errno × Disk :=
  match o.find with
  | some e => (some e, d)
  | none =>
      if d.file.map start = none then (none, d)
      else
        match o.stops with
        | some (e, n) => (some e, d.remove fun l => start ≤ l && l < n)
        | none => (none, d.remove fun l => start ≤ l)

end Files

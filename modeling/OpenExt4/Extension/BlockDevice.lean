import Mathlib.Data.Nat.Basic
import Mathlib.Tactic.Ring
import Mathlib.Tactic.SplitIfs
import OpenExt4.Lib.Windows

set_option autoImplicit false

/-! # Unaligned access to a block device

The bridge of the extension widens a request to whole blocks and goes through a buffer of its own
for the rest; `ext4_block_readbytes` and `ext4_block_writebytes` cut one into a first part of a
block, whole blocks and a last part. Both make a device of blocks one of bytes. -/

namespace BlockAccess

open ByteDevice

/-- The errors of the block devices. -/
inductive Errno where
  | EIO
  | EINVAL
  | EROFS
  deriving DecidableEq, Repr

/-! ## The bridge -/

/-- Which family of calls the bridge uses. -/
inductive Mode where
  | direct
  | metadataCache
  deriving DecidableEq, Repr

/-- How the resource answers a call: it throws, or it has moved `n` bytes. Which bytes are moved is
    told as well; all of them, if as many as were asked for. -/
inductive Answer where
  | threw (landed : ℕ → Bool)
  | moved (n : ℕ) (landed : ℕ → Bool)

/-- `BlockDeviceBridge`. Its blocks are those the initialiser lets through, and the resource
    addresses its bytes by an `off_t`. -/
structure BlockDeviceBridge where
  mode : Mode
  blockSize : ℕ
  blockCount : ℕ
  isWritable : Bool
  block_size : 512 ≤ blockSize
  pow_two : ∃ k, blockSize = 2 ^ k
  fits : blockCount * blockSize < 2 ^ 63

/-- A window of whole blocks, and where the request starts in it. -/
structure AlignedWindow where
  start : ℕ
  length : ℕ
  shift : ℕ

section Bridge

variable (b : BlockDeviceBridge)

/-- `alignedWindow`. -/
def BlockDeviceBridge.alignedWindow (offset count : ℕ) : AlignedWindow :=
  let bs := b.blockSize
  let start := offset / bs * bs
  let last := offset + count
  let alignedEnd := (last + bs - 1) / bs * bs
  { start := start, length := alignedEnd - start, shift := offset - start }

/-- `readRaw` and `writeRaw`, as far as the answer goes: a count that is not the one asked for is a
    failure of the direct family, the other family has no counts. -/
def Answer.landing (mode : Mode) (length : ℕ) : Answer → Landing Errno
  | .threw landed => .fails Errno.EIO landed
  | .moved n landed => if n = length ∨ mode = .metadataCache then .lands else .fails Errno.EIO landed

/-- `read(into:offset:count:)`: the error, and the buffer. -/
def BlockDeviceBridge.read (a : Answer) (dev buf : ℕ → UInt8) (offset count : ℕ) :
    Option Errno × (ℕ → UInt8) :=
  let w := b.alignedWindow offset count
  if w.shift = 0 ∧ w.length = count then
    writeAt buf (a.landing b.mode count) 0 count fun i => dev (offset + i)
  else
    match writeAt (fun _ => 0) (a.landing b.mode w.length) 0 w.length fun i => dev (w.start + i) with
    | (some e, _) => (some e, buf)
    | (none, scratch) => (none, put buf 0 count (fun i => scratch (w.shift + i)) fun _ => true)

/-- `write(from:offset:count:)`: the error, and the device. The answers are those of the read, where
    one is made, and of the write. -/
def BlockDeviceBridge.write (a a' : Answer) (dev buf : ℕ → UInt8) (offset count : ℕ) :
    Option Errno × (ℕ → UInt8) :=
  if b.isWritable = false then (some .EROFS, dev)
  else
    let w := b.alignedWindow offset count
    if w.shift = 0 ∧ w.length = count then
      writeAt dev (a'.landing b.mode count) offset count buf
    else
      match writeAt (fun _ => 0) (a.landing b.mode w.length) 0 w.length
          fun i => dev (w.start + i) with
      | (some e, _) => (some e, dev)
      | (none, scratch) =>
        writeAt dev (a'.landing b.mode w.length) w.start w.length
          (put scratch w.shift count buf fun _ => true)

end Bridge

/-! ## The core's device -/

/-- `struct ext4_blockdev` as `ext4b_device_create` makes it: blocks of a power of two, all of the
    resource in one partition. -/
structure Blockdev where
  phBsize : ℕ
  phBcnt : ℕ
  pow_two : ∃ k, phBsize = 2 ^ k
  bcnt_pos : 0 < phBcnt
  fits : phBcnt * phBsize < 2 ^ 64

/-- How the calls of the interface for one part of a request fare. -/
structure PartCalls where
  bread : Landing Errno
  bwrite : Landing Errno

section Core

variable (bd : Blockdev)

def Blockdev.partSize : ℕ := bd.phBcnt * bd.phBsize

/-- Where `bd_bread` and `bd_bwrite` find a block. -/
def Blockdev.addr (blk : ℕ) : ℕ := blk * bd.phBsize % 2 ^ 64

/-- The shape of the two functions: `part dst blk shift pos n` is for `n` bytes of block `blk` from
    `shift` on, that are at `pos` in the caller's buffer, `whole dst blk pos cnt` for `cnt` blocks;
    `dst` is what they change. -/
def ext4BlockBytes (part : ℕ → (ℕ → UInt8) → ℕ → ℕ → ℕ → ℕ → Option Errno × (ℕ → UInt8))
    (whole : (ℕ → UInt8) → ℕ → ℕ → ℕ → Option Errno × (ℕ → UInt8)) (dst : ℕ → UInt8)
    (off len : ℕ) : Option Errno × (ℕ → UInt8) :=
  if (off + len) % 2 ^ 64 > bd.partSize then (some .EINVAL, dst)
  else
    let blockIdx := off / bd.phBsize
    let unalg := off &&& (bd.phBsize - 1)
    let wlen := if bd.phBsize - unalg > len then len else bd.phBsize - unalg
    -- the first possible unaligned block
    let r := if unalg ≠ 0 then part 0 dst blockIdx unalg 0 wlen else (none, dst)
    if r.1 ≠ none then r
    else
      let pos := if unalg ≠ 0 then wlen else 0
      let blockIdx := if unalg ≠ 0 then blockIdx + 1 else blockIdx
      let left := len - pos
      -- aligned data
      let blen := left / bd.phBsize
      let r := if blen ≠ 0 then whole r.2 blockIdx pos blen else r
      if r.1 ≠ none then r
      else
        let pos := pos + bd.phBsize * blen
        let left := left - bd.phBsize * blen
        -- rest of the data
        if left ≠ 0 then part 1 r.2 (blockIdx + blen) 0 pos left else r

/-- Some bytes of a block into the caller's buffer, by way of `ph_bbuf`. -/
def readPart (c : ℕ → PartCalls) (dev : ℕ → UInt8) (i : ℕ) (p : ℕ → UInt8) (blk shift pos n : ℕ) :
    Option Errno × (ℕ → UInt8) :=
  match writeAt (fun _ => 0) (c i).bread 0 bd.phBsize fun x => dev (bd.addr blk + x) with
  | (some e, _) => (some e, p)
  | (none, bbuf) => (none, put p pos n (fun x => bbuf (shift + x)) fun _ => true)

/-- Some bytes of a block, written by way of `ph_bbuf`. -/
def writePart (c : ℕ → PartCalls) (p : ℕ → UInt8) (i : ℕ) (dev : ℕ → UInt8) (blk shift pos n : ℕ) :
    Option Errno × (ℕ → UInt8) :=
  match writeAt (fun _ => 0) (c i).bread 0 bd.phBsize fun x => dev (bd.addr blk + x) with
  | (some e, _) => (some e, dev)
  | (none, bbuf) =>
    writeAt dev (c i).bwrite (bd.addr blk) bd.phBsize
      (put bbuf shift n (fun x => p (pos + x)) fun _ => true)

/-- `ext4_block_readbytes`: the error, and the caller's buffer. -/
def ext4BlockReadbytes (c : ℕ → PartCalls) (dev p : ℕ → UInt8) (off len : ℕ) :
    Option Errno × (ℕ → UInt8) :=
  ext4BlockBytes bd (readPart bd c dev)
    (fun p blk pos cnt => writeAt p (c 2).bread pos (cnt * bd.phBsize) fun x => dev (bd.addr blk + x))
    p off len

/-- `ext4_block_writebytes`: the error, and the device. -/
def ext4BlockWritebytes (c : ℕ → PartCalls) (dev p : ℕ → UInt8) (off len : ℕ) :
    Option Errno × (ℕ → UInt8) :=
  ext4BlockBytes bd (writePart bd c p)
    (fun dev blk pos cnt =>
      writeAt dev (c 2).bwrite (bd.addr blk) (cnt * bd.phBsize) fun x => p (pos + x))
    dev off len

end Core

/-! ## The window of the bridge -/

section Bridge

variable {b : BlockDeviceBridge}

/-- **The window** covers the request, and no block of it is outside of the device. -/
theorem alignedWindow_spec {offset count : ℕ} (hin : offset + count ≤ b.blockCount * b.blockSize) :
    (b.alignedWindow offset count).start + (b.alignedWindow offset count).shift = offset ∧
      (b.alignedWindow offset count).shift + count ≤ (b.alignedWindow offset count).length ∧
      (b.alignedWindow offset count).start + (b.alignedWindow offset count).length
        ≤ b.blockCount * b.blockSize := by
  have hbs : 0 < b.blockSize := by
    have := b.block_size
    omega
  have hdown := Nat.div_mul_le_self offset b.blockSize
  have hup := Nat.div_add_mod' (offset + count + b.blockSize - 1) b.blockSize
  have hmod := Nat.mod_lt (offset + count + b.blockSize - 1) hbs
  have hend : (offset + count + b.blockSize - 1) / b.blockSize ≤ b.blockCount := by
    rw [← Nat.lt_succ_iff, Nat.div_lt_iff_lt_mul hbs, Nat.succ_mul]
    omega
  have hmul : (offset + count + b.blockSize - 1) / b.blockSize * b.blockSize
      ≤ b.blockCount * b.blockSize := Nat.mul_le_mul_right _ hend
  unfold BlockDeviceBridge.alignedWindow
  dsimp only
  omega

/-- A call moves all its bytes. -/
def Full (mode : Mode) (length : ℕ) (a : Answer) : Prop := a.landing mode length = .lands

/-- A call that does not is a failure. -/
theorem landing_cases (mode : Mode) (length : ℕ) (a : Answer) :
    Full mode length a ∨ ¬ Full mode length a ∧ ∃ landed, a.landing mode length = .fails Errno.EIO landed := by
  unfold Full
  cases a with
  | threw landed => exact Or.inr ⟨nofun, landed, rfl⟩
  | moved n landed =>
      rw [Answer.landing]
      by_cases hfull : n = length ∨ mode = .metadataCache
      · rw [if_pos hfull]
        exact Or.inl rfl
      · rw [if_neg hfull]
        exact Or.inr ⟨nofun, landed, rfl⟩

/-- A read of the bridge returns the bytes of the device, or an error where the resource moves less
    than it is asked for. -/
structure ReadsBytes (b : BlockDeviceBridge) (a : Answer) (dev buf : ℕ → UInt8)
    (offset count : ℕ) : Prop where
  full : Full b.mode (b.alignedWindow offset count).length a →
    b.read a dev buf offset count
      = (none, put buf 0 count (fun i => dev (offset + i)) fun _ => true)
  short : ¬ Full b.mode (b.alignedWindow offset count).length a →
    (b.read a dev buf offset count).1 = some Errno.EIO
  inside : (b.alignedWindow offset count).start + (b.alignedWindow offset count).length
    ≤ b.blockCount * b.blockSize

theorem read_readsBytes (a : Answer) (dev buf : ℕ → UInt8) {offset count : ℕ}
    (hin : offset + count ≤ b.blockCount * b.blockSize) : ReadsBytes b a dev buf offset count := by
  obtain ⟨hshift, hcovers, hinside⟩ := alignedWindow_spec hin
  have hcases := landing_cases b.mode (b.alignedWindow offset count).length a
  refine ⟨fun hfull => ?_, fun hshort => ?_, hinside⟩
  · unfold BlockDeviceBridge.read
    dsimp only
    by_cases hwhole : (b.alignedWindow offset count).shift = 0 ∧
        (b.alignedWindow offset count).length = count
    · rw [Full, hwhole.2] at hfull
      rw [if_pos hwhole, hfull, writeAt_lands]
    · rw [if_neg hwhole, hfull, writeAt_lands]
      dsimp only
      rw [readThrough _ _ hcovers, hshift]
  · obtain ⟨landed, hfails⟩ := (hcases.resolve_left hshort).2
    unfold BlockDeviceBridge.read
    dsimp only
    by_cases hwhole : (b.alignedWindow offset count).shift = 0 ∧
        (b.alignedWindow offset count).length = count
    · rw [if_pos hwhole, ← hwhole.2, hfails, writeAt_fails]
    · rw [if_neg hwhole, hfails, writeAt_fails]

/-- A write of the bridge puts its bytes on the device, or is an error; whichever it is, it leaves
    every other byte alone. -/
structure WritesBytes (b : BlockDeviceBridge) (a a' : Answer) (dev buf : ℕ → UInt8)
    (offset count : ℕ) : Prop where
  full : b.isWritable = true → Full b.mode (b.alignedWindow offset count).length a →
    Full b.mode (b.alignedWindow offset count).length a' →
    b.write a a' dev buf offset count = (none, put dev offset count buf fun _ => true)
  readOnly : b.isWritable = false → b.write a a' dev buf offset count = (some .EROFS, dev)
  short : b.isWritable = true → ¬ Full b.mode (b.alignedWindow offset count).length a' →
    (b.write a a' dev buf offset count).1 = some Errno.EIO
  wrote : Wrote dev offset count buf (b.write a a' dev buf offset count)

theorem write_writesBytes (a a' : Answer) (dev buf : ℕ → UInt8) {offset count : ℕ}
    (hin : offset + count ≤ b.blockCount * b.blockSize) :
    WritesBytes b a a' dev buf offset count := by
  obtain ⟨hshift, hcovers, hinside⟩ := alignedWindow_spec hin
  have hback := @readModifyWrite _ _ dev (b.alignedWindow offset count).start _ buf
    (a'.landing b.mode (b.alignedWindow offset count).length) (fun _ => 0) _ _ hcovers
  rw [hshift] at hback
  by_cases hwritable : b.isWritable = false
  · have hrefused : b.write a a' dev buf offset count = (some .EROFS, dev) := if_pos hwritable
    exact ⟨fun h => by simp [hwritable] at h, fun _ => hrefused, fun h => by simp [hwritable] at h,
      hrefused ▸ Wrote.refused _⟩
  -- a write of the device that is a transfer of the caller's bytes
  have hcommand {start len : ℕ} {data : ℕ → UInt8}
      (hrun : b.write a a' dev buf offset count
        = writeAt dev (a'.landing b.mode (b.alignedWindow offset count).length) start len data)
      (hwrote : Wrote dev offset count buf (writeAt dev
        (a'.landing b.mode (b.alignedWindow offset count).length) start len data)) :
      WritesBytes b a a' dev buf offset count := by
    refine ⟨fun _ _ hfull => ?_, fun h => absurd h hwritable, fun _ hshort => ?_, hrun ▸ hwrote⟩
    · rw [hrun]
      rw [hfull] at hwrote ⊢
      exact Prod.ext rfl (hwrote.done rfl)
    · obtain ⟨landed, hfails⟩ := ((landing_cases _ _ a').resolve_left hshort).2
      rw [hrun, hfails, writeAt_fails]
  by_cases hwhole : (b.alignedWindow offset count).shift = 0 ∧
      (b.alignedWindow offset count).length = count
  · have hrun : b.write a a' dev buf offset count
        = writeAt dev (a'.landing b.mode (b.alignedWindow offset count).length) offset count buf := by
      unfold BlockDeviceBridge.write
      rw [if_neg hwritable, if_pos hwhole, hwhole.2]
    exact hcommand hrun (writeAt_wrote _)
  · rcases landing_cases b.mode (b.alignedWindow offset count).length a with
      hfull | ⟨hshort, landed, hfails⟩
    · refine hcommand ?_ hback
      unfold BlockDeviceBridge.write
      dsimp only
      rw [if_neg hwritable, if_neg hwhole, hfull, writeAt_lands]
    · have hrefused : b.write a a' dev buf offset count = (some Errno.EIO, dev) := by
        unfold BlockDeviceBridge.write
        dsimp only
        rw [if_neg hwritable, if_neg hwhole, hfails, writeAt_fails]
      exact ⟨fun _ hfull => absurd hfull hshort, fun h => absurd h hwritable,
        fun _ _ => by rw [hrefused], hrefused ▸ Wrote.refused _⟩

end Bridge

/-! ## The three parts of a request -/

section Core

variable {bd : Blockdev}

theorem Blockdev.bsize_pos : 0 < bd.phBsize := by
  obtain ⟨k, hk⟩ := bd.pow_two
  rw [hk]
  exact Nat.two_pow_pos k

theorem Blockdev.mask (off : ℕ) : off &&& (bd.phBsize - 1) = off % bd.phBsize := by
  obtain ⟨k, hk⟩ := bd.pow_two
  rw [hk, Nat.and_two_pow_sub_one_eq_mod]

theorem Blockdev.addr_eq {blk : ℕ} (h : blk * bd.phBsize ≤ bd.partSize) :
    bd.addr blk = blk * bd.phBsize := by
  have hfits : bd.partSize < 2 ^ 64 := bd.fits
  exact Nat.mod_eq_of_lt (by omega)

/-- A request outside of the device is refused. -/
theorem ext4BlockBytes_refused {part : ℕ → (ℕ → UInt8) → ℕ → ℕ → ℕ → ℕ → Option Errno × (ℕ → UInt8)}
    {whole : (ℕ → UInt8) → ℕ → ℕ → ℕ → Option Errno × (ℕ → UInt8)} {dst : ℕ → UInt8} {off len : ℕ}
    (hwrap : off + len < 2 ^ 64) (hout : bd.partSize < off + len) :
    ext4BlockBytes bd part whole dst off len = (some .EINVAL, dst) := by
  rw [ext4BlockBytes, Nat.mod_eq_of_lt hwrap, if_pos hout]

/-- **The parts of a request** make it up, if each does what it is for: `base + pos` is where the
    byte at `pos` of the request goes. -/
theorem ext4BlockBytes_wrote
    {part : ℕ → (ℕ → UInt8) → ℕ → ℕ → ℕ → ℕ → Option Errno × (ℕ → UInt8)}
    {whole : (ℕ → UInt8) → ℕ → ℕ → ℕ → Option Errno × (ℕ → UInt8)} {off len base : ℕ}
    {data : ℕ → UInt8} (hin : off + len ≤ bd.partSize)
    (hpart : ∀ i dst blk shift pos n, blk * bd.phBsize + shift = off + pos →
      shift + n ≤ bd.phBsize → blk * bd.phBsize ≤ bd.partSize →
      Wrote dst (base + pos) n (fun x => data (pos + x)) (part i dst blk shift pos n))
    (hwhole : ∀ dst blk pos cnt, blk * bd.phBsize = off + pos → blk * bd.phBsize ≤ bd.partSize →
      Wrote dst (base + pos) (cnt * bd.phBsize) (fun x => data (pos + x)) (whole dst blk pos cnt))
    (dst : ℕ → UInt8) :
    Wrote dst base len data (ext4BlockBytes bd part whole dst off len) := by
  have hbs := bd.bsize_pos
  have hfits : bd.partSize < 2 ^ 64 := bd.fits
  have hdiv := Nat.div_add_mod' off bd.phBsize
  have hmod := Nat.mod_lt off hbs
  rw [ext4BlockBytes, Nat.mod_eq_of_lt (by omega), if_neg (by omega), bd.mask]
  dsimp only
  generalize hpos : (if off % bd.phBsize ≠ 0 then
    if bd.phBsize - off % bd.phBsize > len then len else bd.phBsize - off % bd.phBsize else 0) = pos
  generalize hblk : (if off % bd.phBsize ≠ 0 then off / bd.phBsize + 1 else off / bd.phBsize) = blk
  -- the first part of a block
  generalize hr₀ : (if off % bd.phBsize ≠ 0 then part 0 dst (off / bd.phBsize) (off % bd.phBsize) 0
    (if bd.phBsize - off % bd.phBsize > len then len else bd.phBsize - off % bd.phBsize)
    else (none, dst)) = r₀
  have hfirst : Wrote dst base pos data r₀ := by
    by_cases hunalg : off % bd.phBsize ≠ 0
    · rw [if_pos hunalg] at hpos hr₀
      rw [hpos] at hr₀
      have hhead := hpart 0 dst (off / bd.phBsize) (off % bd.phBsize) 0 pos (by omega)
        (by split at hpos <;> omega) (by omega)
      rw [hr₀] at hhead
      simpa using hhead
    · rw [if_neg hunalg] at hpos hr₀
      rw [← hpos, ← hr₀]
      exact Wrote.nothing
  have hposle : pos ≤ len := by
    split at hpos
    · split at hpos <;> omega
    · omega
  have hnext : pos < len → blk * bd.phBsize = off + pos := by
    intro hlt
    by_cases hunalg : off % bd.phBsize ≠ 0
    · rw [if_pos hunalg] at hpos hblk
      rw [if_neg (by split at hpos <;> omega)] at hpos
      rw [← hblk, Nat.succ_mul]
      omega
    · rw [if_neg hunalg] at hpos hblk
      rw [← hblk]
      omega
  by_cases hok₀ : r₀.1 = none
  · rw [if_neg (not_not.mpr hok₀)]
    -- whole blocks
    have hleft := Nat.div_add_mod' (len - pos) bd.phBsize
    rw [Nat.mul_comm bd.phBsize]
    generalize (len - pos) / bd.phBsize = blen at hleft ⊢
    generalize hr₁ : (if blen ≠ 0 then whole r₀.2 blk pos blen else r₀) = r₁
    have hsecond : Wrote dst base (pos + blen * bd.phBsize) data r₁ := by
      by_cases hblen : blen ≠ 0
      · have hsome : bd.phBsize ≤ blen * bd.phBsize := Nat.le_mul_of_pos_left _ (by omega)
        rw [if_pos hblen] at hr₁
        rw [← hr₁]
        exact hfirst.append hok₀ (hwhole r₀.2 blk pos blen (hnext (by omega))
          (by rw [hnext (by omega)]; omega))
      · have hzero : blen = 0 := by omega
        rw [if_neg hblen] at hr₁
        rw [← hr₁, hzero, Nat.zero_mul, Nat.add_zero]
        exact hfirst
    by_cases hok₁ : r₁.1 = none
    · rw [if_neg (not_not.mpr hok₁)]
      -- the last part of a block
      by_cases hrest : len - pos - blen * bd.phBsize ≠ 0
      · rw [if_pos hrest]
        have hlast := hpart 1 r₁.2 (blk + blen) 0 (pos + blen * bd.phBsize)
          (len - pos - blen * bd.phBsize)
          (by rw [Nat.add_mul, hnext (by omega)]; omega)
          (by have := Nat.mod_lt (len - pos) hbs; omega)
          (by rw [Nat.add_mul, hnext (by omega)]; omega)
        have hlen : pos + blen * bd.phBsize + (len - pos - blen * bd.phBsize) = len := by omega
        have hall := hsecond.append hok₁ hlast
        rwa [hlen] at hall
      · rw [if_neg hrest]
        have hlen : len = pos + blen * bd.phBsize := by omega
        rw [hlen]
        exact hsecond
    · rw [if_pos hok₁]
      have hlen : len = pos + blen * bd.phBsize + (len - pos - blen * bd.phBsize) := by omega
      rw [hlen]
      exact hsecond.stopped hok₁
  · rw [if_pos hok₀]
    have hlen : len = pos + (len - pos) := by omega
    rw [hlen]
    exact hfirst.stopped hok₀

/-- A request whose parts all go well goes well. -/
theorem ext4BlockBytes_ok
    {part : ℕ → (ℕ → UInt8) → ℕ → ℕ → ℕ → ℕ → Option Errno × (ℕ → UInt8)}
    {whole : (ℕ → UInt8) → ℕ → ℕ → ℕ → Option Errno × (ℕ → UInt8)} {off len : ℕ}
    (hin : off + len ≤ bd.partSize)
    (hpart : ∀ i dst blk shift pos n, (part i dst blk shift pos n).1 = none)
    (hwhole : ∀ dst blk pos cnt, (whole dst blk pos cnt).1 = none) (dst : ℕ → UInt8) :
    (ext4BlockBytes bd part whole dst off len).1 = none := by
  have hfits : bd.partSize < 2 ^ 64 := bd.fits
  rw [ext4BlockBytes, Nat.mod_eq_of_lt (by omega), if_neg (by omega)]
  dsimp only
  split_ifs <;> simp_all

/-- The calls for the parts of a request move all their bytes. -/
def AllLand (c : ℕ → PartCalls) : Prop := ∀ i, (c i).bread = .lands ∧ (c i).bwrite = .lands

/-- `ext4_block_readbytes` returns the bytes of the device, and refuses what is outside of it. -/
structure CoreReads (bd : Blockdev) (c : ℕ → PartCalls) (dev p : ℕ → UInt8) (off len : ℕ) :
    Prop where
  wrote : off + len ≤ bd.partSize →
    Wrote p 0 len (fun i => dev (off + i)) (ext4BlockReadbytes bd c dev p off len)
  ok : off + len ≤ bd.partSize → AllLand c → (ext4BlockReadbytes bd c dev p off len).1 = none
  refused : bd.partSize < off + len → ext4BlockReadbytes bd c dev p off len = (some .EINVAL, p)

/-- `ext4_block_writebytes` writes the bytes of the device, and refuses what is outside of it. -/
structure CoreWrites (bd : Blockdev) (c : ℕ → PartCalls) (dev p : ℕ → UInt8) (off len : ℕ) :
    Prop where
  wrote : off + len ≤ bd.partSize → Wrote dev off len p (ext4BlockWritebytes bd c dev p off len)
  ok : off + len ≤ bd.partSize → AllLand c → (ext4BlockWritebytes bd c dev p off len).1 = none
  refused : bd.partSize < off + len → ext4BlockWritebytes bd c dev p off len = (some .EINVAL, dev)

theorem readbytes_coreReads (c : ℕ → PartCalls) (dev p : ℕ → UInt8) {off len : ℕ}
    (hwrap : off + len < 2 ^ 64) : CoreReads bd c dev p off len := by
  refine ⟨fun hin => ?_, fun hin hland => ?_, ext4BlockBytes_refused hwrap⟩
  · refine ext4BlockBytes_wrote hin (fun i p blk shift pos n hat hfits hblk => ?_)
      (fun p blk pos cnt hat hblk => ?_) p
    · have haddr : ∀ x, dev (off + (pos + x)) = dev (blk * bd.phBsize + shift + x) := by
        intro x
        rw [hat, Nat.add_assoc]
      simp only [haddr, readPart, bd.addr_eq hblk, Nat.zero_add]
      cases (c i).bread with
      | lands =>
          rw [writeAt_lands]
          dsimp only
          rw [readThrough _ _ hfits]
          exact ⟨fun _ => rfl, fun _ => Or.inr rfl⟩
      | fails e landed => exact Wrote.refused e
    · have haddr : ∀ x, dev (off + (pos + x)) = dev (blk * bd.phBsize + x) := by
        intro x
        rw [hat, Nat.add_assoc]
      simp only [haddr, bd.addr_eq hblk, Nat.zero_add]
      exact writeAt_wrote _
  · refine ext4BlockBytes_ok hin (fun i p blk shift pos n => ?_) (fun p blk pos cnt => ?_) p
    · rw [readPart, (hland i).1, writeAt_lands]
    · rw [(hland 2).1, writeAt_lands]

theorem writebytes_coreWrites (c : ℕ → PartCalls) (dev p : ℕ → UInt8) {off len : ℕ}
    (hwrap : off + len < 2 ^ 64) : CoreWrites bd c dev p off len := by
  refine ⟨fun hin => ?_, fun hin hland => ?_, ext4BlockBytes_refused hwrap⟩
  · refine ext4BlockBytes_wrote hin (fun i dev blk shift pos n hat hfits hblk => ?_)
      (fun dev blk pos cnt hat hblk => ?_) dev
    · rw [writePart, bd.addr_eq hblk, ← hat]
      cases (c i).bread with
      | lands =>
          rw [writeAt_lands]
          exact readModifyWrite _ _ hfits
      | fails e landed => exact Wrote.refused e
    · rw [bd.addr_eq hblk, hat]
      exact writeAt_wrote _
  · refine ext4BlockBytes_ok hin (fun i dev blk shift pos n => ?_) (fun dev blk pos cnt => ?_) dev
    · rw [writePart, (hland i).1, writeAt_lands, (hland i).2]
      rfl
    · rw [(hland 2).2, writeAt_lands]

end Core

/-! ## The claim -/

/-- **Unaligned access to a block device is access to an array of bytes.** -/
theorem unalignedAccess_bytes :
    (∀ (b : BlockDeviceBridge) (a : Answer) (dev buf : ℕ → UInt8) (offset count : ℕ),
      offset + count ≤ b.blockCount * b.blockSize → ReadsBytes b a dev buf offset count) ∧
    (∀ (b : BlockDeviceBridge) (a a' : Answer) (dev buf : ℕ → UInt8) (offset count : ℕ),
      offset + count ≤ b.blockCount * b.blockSize → WritesBytes b a a' dev buf offset count) ∧
    ∀ (bd : Blockdev) (c : ℕ → PartCalls) (dev p : ℕ → UInt8) (off len : ℕ),
      off + len < 2 ^ 64 → CoreReads bd c dev p off len ∧ CoreWrites bd c dev p off len :=
  ⟨fun _ a dev buf _ _ hin => read_readsBytes a dev buf hin,
    fun _ a a' dev buf _ _ hin => write_writesBytes a a' dev buf hin,
    fun _ c dev p _ _ hwrap => ⟨readbytes_coreReads c dev p hwrap, writebytes_coreWrites c dev p hwrap⟩⟩

/-- A device of eight blocks of 512 bytes, behind the bridge and behind the core. -/
def smallBridge : BlockDeviceBridge where
  mode := .direct
  blockSize := 512
  blockCount := 8
  isWritable := true
  block_size := by decide
  pow_two := ⟨9, rfl⟩
  fits := by decide

def smallBlockdev : Blockdev where
  phBsize := 512
  phBcnt := 8
  pow_two := ⟨9, rfl⟩
  bcnt_pos := by decide
  fits := by decide

/-- A write of ten bytes across the border of two blocks, through both. -/
theorem unalignedAccess_bytes_small :
    smallBridge.write (.moved 1024 fun _ => true) (.moved 1024 fun _ => true) (fun _ => 7)
        UInt8.ofNat 507 10 = (none, put (fun _ => 7) 507 10 UInt8.ofNat fun _ => true) ∧
      (ext4BlockWritebytes smallBlockdev (fun _ => ⟨.lands, .lands⟩) (fun _ => 7)
        UInt8.ofNat 507 10).1 = none :=
  ⟨(unalignedAccess_bytes.2.1 smallBridge (.moved 1024 fun _ => true) (.moved 1024 fun _ => true)
      (fun _ => 7) UInt8.ofNat 507 10 (by decide)).full rfl rfl rfl,
    (unalignedAccess_bytes.2.2 smallBlockdev (fun _ => ⟨.lands, .lands⟩) (fun _ => 7) UInt8.ofNat
      507 10 (by decide)).2.ok (by decide) fun _ => ⟨rfl, rfl⟩⟩

/-- A transfer that is short by a byte makes a read fail, and a range that starts a block before
    2^64 and ends there is not refused. -/
theorem unalignedAccess_short :
    0 + 512 ≤ smallBridge.blockCount * smallBridge.blockSize ∧
      (smallBridge.read (.moved 511 fun _ => true) (fun _ => 7) (fun _ => 0) 0 512).1
        = some Errno.EIO ∧
      smallBlockdev.partSize < 2 ^ 64 - 512 + 512 ∧
      (ext4BlockWritebytes smallBlockdev (fun _ => ⟨.lands, .lands⟩) (fun _ => 0) (fun _ => 1)
        (2 ^ 64 - 512) 512).1 = none := by
  refine ⟨by decide, by decide, by decide, by decide⟩

end BlockAccess

import Mathlib.Data.List.MinMax
import Mathlib.Data.List.Sort
import Mathlib.Logic.Function.Basic
import Mathlib.Tactic.Ring
import Mathlib.Tactic.Simps.Basic
import OpenExt4.Lib.WriteBack

set_option autoImplicit false

/-! # The block cache

`ext4_bcache.c` and the cached half of `ext4_blockdev.c`. A buffer is named by its block: `lbaRoot`
and `lruRoot` are the buffers in the two trees, `dirtyList` those on the list, and `buf` is the
memory they point into. Every write of the device may fail and leave anything in its block. -/

namespace Bcache

/-- The codes the cache returns. -/
inductive Rc where
  | EOK
  | EIO
  | ENXIO
  | ENOMEM
  deriving DecidableEq, Repr

/-- `struct ext4_buf`, with a block's contents in `data`. -/
structure Buf (α : Type) where
  data : α
  uptodate : Bool
  dirty : Bool
  flush : Bool
  tmp : Bool
  lruId : ℕ
  refctr : ℕ
  onDirtyList : Bool
  endWrite : Bool

/-- `struct ext4_bcache`, with the fields of its block device that it uses and the medium. -/
structure Cache (α : Type) where
  cnt : ℕ
  lruCtr : ℕ
  refBlocks : ℕ
  dontShake : Bool
  ioErr : Bool
  lbaRoot : List ℕ
  lruRoot : List ℕ
  dirtyList : List ℕ
  buf : ℕ → Buf α
  cacheWriteBack : ℕ
  lgBsize : ℕ
  lgBcnt : ℕ
  device : ℕ → α

/-- What a write of a block comes to: done, or an error that leaves `left` in the block. -/
inductive WriteRes (α : Type) where
  | ok
  | fail (left : α)

variable {α : Type}

/-- The source returns at once on an error. -/
def andThen {σ : Type} (r : Rc × σ) (k : σ → Rc × σ) : Rc × σ := if r.1 = .EOK then k r.2 else r

namespace Cache

variable (c : Cache α)

def setBuf (x : ℕ) (f : Buf α → Buf α) : Cache α :=
  { c with buf := Function.update c.buf x (f (c.buf x)) }

@[simps] def setDevice (x : ℕ) (d : α) : Cache α := { c with device := Function.update c.device x d }

@[simps] def setDontShake (b : Bool) : Cache α := { c with dontShake := b }

@[simps] def setIoErr (b : Bool) : Cache α := { c with ioErr := b }

/-! ## `ext4_bcache.c` -/

/-- `RB_INSERT` into the tree of the blocks, with the count of its buffers. -/
@[simps] def insertLba (x : ℕ) : Cache α :=
  { c with lbaRoot := c.lbaRoot.orderedInsert (· ≤ ·) x, refBlocks := c.refBlocks + 1 }

/-- `RB_REMOVE` from the tree of the blocks, with the count of its buffers. -/
@[simps] def removeLba (x : ℕ) : Cache α :=
  { c with lbaRoot := c.lbaRoot.erase x, refBlocks := c.refBlocks - 1 }

/-- `RB_INSERT` into the LRU tree, which leaves out a buffer whose key is in it already. -/
def insertLru (x : ℕ) : Cache α :=
  if ∃ y ∈ c.lruRoot, (c.buf y).lruId = (c.buf x).lruId then c
  else { c with lruRoot := x :: c.lruRoot }

/-- `RB_REMOVE` from the LRU tree. -/
@[simps] def removeLru (x : ℕ) : Cache α := { c with lruRoot := c.lruRoot.erase x }

/-- The buffer takes the next id of the LRU counter. -/
def takeId (x : ℕ) : Cache α :=
  { c.setBuf x fun b => { b with lruId := (c.lruCtr + 1) % 2 ^ 32 } with
    lruCtr := (c.lruCtr + 1) % 2 ^ 32 }

/-- `ext4_bcache_inc_ref` and `ext4_bcache_dec_ref`. -/
def incRef (x : ℕ) : Cache α := c.setBuf x fun b => { b with refctr := b.refctr + 1 }

def decRef (x : ℕ) : Cache α := c.setBuf x fun b => { b with refctr := b.refctr - 1 }

/-- `ext4_bcache_insert_dirty_node`. -/
def insertDirtyNode (x : ℕ) : Cache α :=
  if (c.buf x).onDirtyList then c
  else { c.setBuf x fun b => { b with onDirtyList := true } with dirtyList := x :: c.dirtyList }

/-- `ext4_bcache_remove_dirty_node`. -/
def removeDirtyNode (x : ℕ) : Cache α :=
  if (c.buf x).onDirtyList then
    { c.setBuf x fun b => { b with onDirtyList := false } with dirtyList := c.dirtyList.erase x }
  else c

/-- Off the list, if the buffer is dirty. -/
def removeIfDirty (x : ℕ) : Cache α := if (c.buf x).dirty then c.removeDirtyNode x else c

/-- `ext4_buf_lowest_lru`. -/
def lowestLru : Option ℕ := c.lruRoot.argmin fun x => (c.buf x).lruId

/-- `ext4_bcache_is_full`. -/
def isFull : Bool := c.cnt ≤ c.refBlocks

/-- `ext4_bcache_drop_buf`. -/
def dropBuf (x : ℕ) : Cache α :=
  let c := if (c.buf x).refctr ≠ 0 then c else c.removeLru x
  (c.removeLba x).removeIfDirty x

/-- `ext4_bcache_invalidate_buf`. -/
def invalidateBuf (x : ℕ) : Cache α :=
  ((c.setBuf x fun b => { b with endWrite := false }).removeIfDirty x).setBuf x
    fun b => { b with uptodate := false, dirty := false }

/-- The buffers `ext4_bcache_invalidate_lba` walks over: in the order of the tree from the buffer of
    the first block on, if there is one, up to the end of the range. -/
def walkFrom (first cnt : ℕ) : List ℕ :=
  (c.lbaRoot.dropWhile (· ≠ first)).takeWhile (· ≤ (first + cnt + 2 ^ 64 - 1) % 2 ^ 64)

/-- `ext4_bcache_invalidate_lba`. -/
def invalidateLba (first cnt : ℕ) : Cache α :=
  (c.walkFrom first cnt).foldl invalidateBuf c

/-- `ext4_bcache_update_if_cached`, with `f` what the write does to the block. -/
def updateIfCached (x : ℕ) (f : α → α) : Cache α :=
  if x ∈ c.lbaRoot then c.setBuf x fun b => { b with data := f b.data } else c

/-- `ext4_bcache_find_get` on a buffer that is there. -/
def findGet (x : ℕ) : Cache α :=
  (if (c.buf x).refctr = 0 then ((c.takeId x).removeLru x).removeIfDirty x else c).incRef x

/-- The buffer `ext4_buf_alloc` makes, with `junk` in its memory. -/
def newBuf (junk : α) : Buf α where
  data := junk
  uptodate := false
  dirty := false
  flush := false
  tmp := false
  lruId := 0
  refctr := 0
  onDirtyList := false
  endWrite := false

/-- `ext4_bcache_alloc`; `mem` is the memory of a new buffer, if there is some. -/
def alloc (x : ℕ) (mem : Option α) : Rc × Cache α :=
  if x ∈ c.lbaRoot then (.EOK, c.findGet x)
  else match mem with
    | none => (.ENOMEM, c)
    | some junk => (.EOK, (((c.setBuf x fun _ => newBuf junk).insertLba x).incRef x).takeId x)

/-! ## `ext4_blockdev.c` -/

/-- The end of a write, which a buffer of the journal reports. The callback does not come back into
    the cache but for taking itself off the buffer. -/
def reportWrite (x : ℕ) : Cache α :=
  if (c.buf x).endWrite then
    (c.setBuf x fun b => { b with endWrite := false }).setDontShake false
  else c

/-- `ext4_block_flush_buf`. -/
def flushBuf (x : ℕ) (w : WriteRes α) : Rc × Cache α :=
  if (c.buf x).dirty ∧ (c.buf x).uptodate then
    match w with
    | .fail left => (Rc.EIO, (c.setDevice x left).reportWrite x)
    | .ok =>
      (.EOK, (((c.setDevice x (c.buf x).data).removeDirtyNode x).setBuf x
        fun b => { b with dirty := false }).reportWrite x)
  else (.EOK, c)

/-- What `ext4_bcache_free` does with a buffer nobody references any more. -/
def settle (x : ℕ) (w : WriteRes α) : Cache α :=
  if (c.buf x).dirty ∧ (c.buf x).uptodate then
    if c.cacheWriteBack ≠ 0 ∧ (c.buf x).flush = false ∧ (c.buf x).tmp = false then
      c.insertDirtyNode x
    else
      let r := c.flushBuf x w
      (if r.1 = .EOK then r.2 else r.2.setIoErr true).setBuf x fun b => { b with flush := false }
  else c

/-- `ext4_bcache_free`, of a buffer that is referenced. -/
def free (x : ℕ) (w : WriteRes α) : Cache α :=
  let c := c.decRef x
  if (c.buf x).refctr ≠ 0 then c
  else
    let c := (c.insertLru x).settle x w
    if (c.buf x).uptodate = false ∨ (c.buf x).tmp = true then c.dropBuf x else c

/-- `ext4_block_flush_lba`. The buffer may be written twice, by the flush and by the release. -/
def flushLba (x : ℕ) (w w' : WriteRes α) : Rc × Cache α :=
  if x ∈ c.lbaRoot then
    let r := (c.findGet x).flushBuf x w
    (r.1, r.2.free x w')
  else (.EOK, c)

/-- The loop of `ext4_block_cache_shake`, which drops a buffer a turn. -/
def shakeLoop : ℕ → Cache α → (ℕ → WriteRes α) → Rc × Cache α
  | 0, c, _ => (.EOK, c)
  | fuel + 1, c, w =>
    match c.lowestLru with
    | none => (.EOK, c)
    | some x =>
      if c.isFull then
        andThen (if (c.buf x).dirty then c.flushBuf x (w x) else (.EOK, c))
          fun c => shakeLoop fuel (c.dropBuf x) w
      else (.EOK, c)

/-- `ext4_block_cache_shake`. -/
def shake (w : ℕ → WriteRes α) : Rc × Cache α :=
  if c.dontShake then (.EOK, c)
  else
    let r := shakeLoop c.lruRoot.length (c.setDontShake true) w
    (r.1, r.2.setDontShake false)

/-- What `ext4_block_get_noread` and `ext4_block_get_sb` share: room is made, and the buffer of the
    block got or made. -/
def getNoreadAt (x : ℕ) (mem : Option α) (w : ℕ → WriteRes α) : Rc × Cache α :=
  andThen (c.shake w) fun c => c.alloc x mem

/-- `ext4_block_get_noread`, of a block of the device that is not the hole marker. -/
def getNoread (x : ℕ) (mem : Option α) (w : ℕ → WriteRes α) : Rc × Cache α :=
  if ¬ x < c.lgBcnt then (Rc.ENXIO, c)
  else if x = 0 then (Rc.ENXIO, c)
  else c.getNoreadAt x mem w

/-- The second half of `ext4_block_get` and `ext4_block_get_sb`: a buffer that is not up to date is
    read, which `readOk` says works. -/
def fill (x : ℕ) (readOk : Bool) (w : WriteRes α) : Rc × Cache α :=
  if (c.buf x).uptodate then (.EOK, c)
  else if readOk then (.EOK, c.setBuf x fun b => { b with data := c.device x, uptodate := true })
  else (Rc.EIO, c.free x w)

/-- `ext4_block_get`. -/
def get (x : ℕ) (mem : Option α) (readOk : Bool) (w : ℕ → WriteRes α) : Rc × Cache α :=
  andThen (c.getNoread x mem w) fun c => c.fill x readOk (w x)

/-- The block of the superblock. -/
def sbLba : ℕ := if c.lgBsize > 1024 then 0 else 1

/-- `ext4_block_get_sb`. -/
def getSb (mem : Option α) (readOk : Bool) (w : ℕ → WriteRes α) : Rc × Cache α :=
  if ¬ c.sbLba < c.lgBcnt then (Rc.ENXIO, c)
  else andThen (c.getNoreadAt c.sbLba mem w) fun c' => c'.fill c.sbLba readOk (w c.sbLba)

/-- The loop of `ext4_block_cache_flush`, which takes a buffer off the list a turn. -/
def cacheFlushLoop : ℕ → Cache α → (ℕ → WriteRes α) → Rc × Cache α
  | 0, c, _ => (.EOK, c)
  | fuel + 1, c, w =>
    match c.dirtyList with
    | [] => (.EOK, c)
    | x :: _ => andThen (c.flushBuf x (w x)) fun c => cacheFlushLoop fuel c w

/-- `ext4_block_cache_flush`, which answers for the writes that failed before. -/
def cacheFlush (w : ℕ → WriteRes α) : Rc × Cache α :=
  andThen (cacheFlushLoop c.dirtyList.length c w) fun c =>
    (if c.ioErr then Rc.EIO else .EOK, c.setIoErr false)

@[simps] def setWriteBack (n : ℕ) : Cache α := { c with cacheWriteBack := n }

/-- `ext4_block_cache_write_back`. -/
def writeBack (on : Bool) (w : ℕ → WriteRes α) : Rc × Cache α :=
  let n := if on then c.cacheWriteBack + 1 else c.cacheWriteBack - 1
  if n ≠ 0 then (.EOK, c.setWriteBack n) else (c.setWriteBack n).cacheFlush w

/-! ## Changes by those who hold a buffer, and writes past the cache -/

/-- New contents for a block, by the holder of its buffer, who then says so
    (`ext4_bcache_set_dirty`). -/
def modify (x : ℕ) (d : α) : Cache α :=
  c.setBuf x fun b => { b with data := d, uptodate := true, dirty := true }

/-- The flags the journal sets on a buffer it holds, and its callback. -/
def mark (x : ℕ) (flush tmp endWrite : Bool) : Cache α :=
  c.setBuf x fun b => { b with
    flush := b.flush || flush, tmp := b.tmp || tmp, endWrite := b.endWrite || endWrite }

/-- The blocks of a range. -/
def InRange (first cnt x : ℕ) : Prop := first ≤ x ∧ x < first + cnt

instance (first cnt x : ℕ) : Decidable (InRange first cnt x) := inferInstanceAs (Decidable (_ ∧ _))

@[simps] def setDeviceRange (first cnt : ℕ) (d : ℕ → α) : Cache α :=
  { c with device := fun x => if InRange first cnt x then d x else c.device x }

/-- A write of the blocks of a range past the cache, `ext4_blocks_set_direct` or a whole-block
    `ext4_block_writebytes`: on an error there is anything in them. -/
def setDirect (first cnt : ℕ) (d : ℕ → α) (left : Option (ℕ → α)) : Rc × Cache α :=
  match left with
  | none => (.EOK, c.setDeviceRange first cnt d)
  | some left => (Rc.EIO, c.setDeviceRange first cnt left)

/-- `bridge_flush_run`: file data past the cache, then into the buffers there are of its blocks. -/
def bridgeFlushRun (first cnt : ℕ) (d : ℕ → α) (left : Option (ℕ → α)) : Rc × Cache α :=
  andThen (c.setDirect first cnt d left) fun c =>
    (.EOK, (List.range' first cnt).foldl (fun c x => c.updateIfCached x fun _ => d x) c)

/-- A write of a part of a block, the same way (the partial blocks of `ext4b_write` and the end of
    file that `ext4b_truncate` clears). -/
def writePart (x : ℕ) (f : α → α) (left : Option α) : Rc × Cache α :=
  match left with
  | none => (.EOK, (c.setDevice x (f (c.device x))).updateIfCached x f)
  | some left => (Rc.EIO, c.setDevice x left)

/-- A write past the cache that then drops the buffers of its blocks: a new inode table, the zeros
    under an unwritten extent (which does so after an error as well, `always`), and the blocks of
    a commit. -/
def setDirectInvalidate (first cnt : ℕ) (d : ℕ → α) (left : Option (ℕ → α)) (always : Bool) :
    Rc × Cache α :=
  let r := c.setDirect first cnt d left
  (r.1, if r.1 = .EOK ∨ always = true then r.2.invalidateLba first cnt else r.2)

end Cache

end Bcache

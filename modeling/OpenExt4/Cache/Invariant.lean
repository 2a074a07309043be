import Mathlib.Data.List.Nodup
import OpenExt4.Cache.Bcache

set_option autoImplicit false

/-! # The cache is well formed

What holds of the trees, the dirty list and the counts between any two calls, and that every
operation of the cache keeps it. -/

namespace Bcache

namespace Cache

variable {α : Type} {c : Cache α} {x y : ℕ}

/-! ## Changing one buffer -/

section Setters

variable (c x) (f : Buf α → Buf α)

@[simp] theorem setBuf_self : (c.setBuf x f).buf x = f (c.buf x) := Function.update_self ..

@[simp] theorem setBuf_lbaRoot : (c.setBuf x f).lbaRoot = c.lbaRoot := rfl
@[simp] theorem setBuf_lruRoot : (c.setBuf x f).lruRoot = c.lruRoot := rfl
@[simp] theorem setBuf_dirtyList : (c.setBuf x f).dirtyList = c.dirtyList := rfl
@[simp] theorem setBuf_lruCtr : (c.setBuf x f).lruCtr = c.lruCtr := rfl
@[simp] theorem setBuf_refBlocks : (c.setBuf x f).refBlocks = c.refBlocks := rfl
@[simp] theorem setBuf_device : (c.setBuf x f).device = c.device := rfl

@[simp] theorem takeId_self :
    (c.takeId x).buf x = { c.buf x with lruId := (c.lruCtr + 1) % 2 ^ 32 } :=
  Function.update_self ..

@[simp] theorem takeId_lbaRoot : (c.takeId x).lbaRoot = c.lbaRoot := rfl
@[simp] theorem takeId_lruRoot : (c.takeId x).lruRoot = c.lruRoot := rfl
@[simp] theorem takeId_dirtyList : (c.takeId x).dirtyList = c.dirtyList := rfl
@[simp] theorem takeId_device : (c.takeId x).device = c.device := rfl

/-- The buffer is off the list. -/
def takeOff : Cache α :=
  { c.setBuf x fun b => { b with onDirtyList := false } with dirtyList := c.dirtyList.erase x }

@[simp] theorem takeOff_self :
    (c.takeOff x).buf x = { c.buf x with onDirtyList := false } := Function.update_self ..

@[simp] theorem takeOff_lbaRoot : (c.takeOff x).lbaRoot = c.lbaRoot := rfl
@[simp] theorem takeOff_lruRoot : (c.takeOff x).lruRoot = c.lruRoot := rfl
@[simp] theorem takeOff_dirtyList : (c.takeOff x).dirtyList = c.dirtyList.erase x := rfl
@[simp] theorem takeOff_device : (c.takeOff x).device = c.device := rfl

end Setters

@[simp] theorem setBuf_of_ne (h : y ≠ x) (f : Buf α → Buf α) :
    (c.setBuf x f).buf y = c.buf y := Function.update_of_ne h ..

@[simp] theorem takeId_of_ne (h : y ≠ x) : (c.takeId x).buf y = c.buf y :=
  Function.update_of_ne h ..

@[simp] theorem takeOff_of_ne (h : y ≠ x) : (c.takeOff x).buf y = c.buf y :=
  Function.update_of_ne h ..

/-! ## The invariant -/

/-- A block's buffer is where its flags and its count of references say. -/
structure Placed (c : Cache α) (x : ℕ) : Prop where
  lru_iff : x ∈ c.lruRoot ↔ x ∈ c.lbaRoot ∧ (c.buf x).refctr = 0
  dirty_iff : x ∈ c.dirtyList ↔ x ∈ c.lbaRoot ∧ (c.buf x).onDirtyList = true
  listed : x ∈ c.lbaRoot → (c.buf x).onDirtyList = true →
    (c.buf x).refctr = 0 ∧ (c.buf x).dirty = true
  valid : x ∈ c.lbaRoot → (c.buf x).dirty = true → (c.buf x).uptodate = true

/-- **The cache is well formed**: the tree of the blocks holds each once and is counted, the LRU
    tree holds exactly the buffers nobody references, the dirty list only such that are dirty, what
    is dirty is valid, and no two buffers share an LRU id. -/
structure Wf (c : Cache α) : Prop where
  sorted : c.lbaRoot.Pairwise (· < ·)
  ref_blocks : c.refBlocks = c.lbaRoot.length
  lru_nodup : c.lruRoot.Nodup
  dirty_nodup : c.dirtyList.Nodup
  placed : ∀ x, Placed c x
  ids : ∀ x ∈ c.lbaRoot, ∀ y ∈ c.lbaRoot, y ≠ x → (c.buf y).lruId ≠ (c.buf x).lruId

/-- If getting a block's buffer takes an id, the next one of the LRU counter, then that is not the id
    of another buffer in the cache. -/
def FreshId (c : Cache α) (x : ℕ) : Prop :=
  (x ∈ c.lbaRoot → (c.buf x).refctr = 0) →
    ∀ y ∈ c.lbaRoot, y ≠ x → (c.buf y).lruId ≠ (c.lruCtr + 1) % 2 ^ 32

instance (c : Cache α) (x : ℕ) : Decidable (c.FreshId x) := inferInstanceAs (Decidable (_ → _))

theorem Wf.nodup (h : Wf c) : c.lbaRoot.Nodup := h.sorted.imp Nat.ne_of_lt

/-- Only the buffer of `x` changes its state and its places. -/
structure Elsewhere (x : ℕ) (c c' : Cache α) : Prop where
  buf : ∀ y, y ≠ x → c'.buf y = c.buf y
  lba : ∀ y, y ≠ x → (y ∈ c'.lbaRoot ↔ y ∈ c.lbaRoot)
  lru : ∀ y, y ≠ x → (y ∈ c'.lruRoot ↔ y ∈ c.lruRoot)
  dirty : ∀ y, y ≠ x → (y ∈ c'.dirtyList ↔ y ∈ c.dirtyList)

variable {c' : Cache α}

/-- A change of one buffer keeps the cache well formed if that buffer is placed afterwards. -/
theorem Wf.change (h : Wf c) (hoff : Elsewhere x c c') (hsorted : c'.lbaRoot.Pairwise (· < ·))
    (hcount : c'.refBlocks = c'.lbaRoot.length) (hlru : c'.lruRoot.Nodup)
    (hdirty : c'.dirtyList.Nodup) (hplaced : Placed c' x)
    (hid : x ∈ c'.lbaRoot → ∀ y ∈ c.lbaRoot, y ≠ x → (c.buf y).lruId ≠ (c'.buf x).lruId) :
    Wf c' := by
  refine ⟨hsorted, hcount, hlru, hdirty, fun y => ?_, fun y hy z hz hne => ?_⟩
  · by_cases hyx : y = x
    · rw [hyx]
      exact hplaced
    · obtain ⟨hl, hd, hlisted, hvalid⟩ := h.placed y
      constructor
      · rw [hoff.lru y hyx, hoff.lba y hyx, hoff.buf y hyx]
        exact hl
      · rw [hoff.dirty y hyx, hoff.lba y hyx, hoff.buf y hyx]
        exact hd
      · rw [hoff.lba y hyx, hoff.buf y hyx]
        exact hlisted
      · rw [hoff.lba y hyx, hoff.buf y hyx]
        exact hvalid
  · by_cases hyx : y = x
    · subst hyx
      rw [hoff.buf z hne]
      exact hid hy z ((hoff.lba z hne).mp hz) hne
    · by_cases hzx : z = x
      · subst hzx
        rw [hoff.buf y hyx]
        exact (hid hz y ((hoff.lba y hyx).mp hy) hyx).symm
      · rw [hoff.buf y hyx, hoff.buf z hzx]
        exact h.ids y ((hoff.lba y hyx).mp hy) z ((hoff.lba z hzx).mp hz) hne

/-- A change of a buffer that keeps its place in the trees and on the list. -/
theorem Wf.setBuf (h : Wf c) (x : ℕ) {f : Buf α → Buf α}
    (hid : (f (c.buf x)).lruId = (c.buf x).lruId)
    (href : (f (c.buf x)).refctr = 0 ↔ (c.buf x).refctr = 0)
    (hlist : (f (c.buf x)).onDirtyList = (c.buf x).onDirtyList)
    (hdirty : (c.buf x).onDirtyList = true → x ∈ c.lbaRoot → (f (c.buf x)).dirty = true)
    (hvalid : (f (c.buf x)).dirty = true → x ∈ c.lbaRoot → (f (c.buf x)).uptodate = true) :
    Wf (c.setBuf x f) := by
  obtain ⟨hl, hd, hlisted, -⟩ := h.placed x
  refine h.change (x := x) ⟨fun y hy => setBuf_of_ne hy f, fun y _ => Iff.rfl, fun y _ => Iff.rfl,
    fun y _ => Iff.rfl⟩ h.sorted h.ref_blocks h.lru_nodup h.dirty_nodup ⟨?_, ?_, ?_, ?_⟩ ?_
  · simpa [href] using hl
  · simpa [hlist] using hd
  · simp only [setBuf_self, setBuf_lbaRoot, hlist]
    exact fun hmem hon => ⟨href.mpr (hlisted hmem hon).1, hdirty hon hmem⟩
  · simp only [setBuf_self, setBuf_lbaRoot]
    exact fun hmem hd => hvalid hd hmem
  · simp only [setBuf_self, setBuf_lbaRoot, hid]
    exact fun hmem y hy hne => h.ids x hmem y hy hne

/-- Only the trees, the list, the count and the buffers matter. -/
theorem Wf.congr (h : Wf c) (hlba : c'.lbaRoot = c.lbaRoot) (hlru : c'.lruRoot = c.lruRoot)
    (hdirty : c'.dirtyList = c.dirtyList) (hcount : c'.refBlocks = c.refBlocks)
    (hbuf : c'.buf = c.buf) : Wf c' := by
  obtain ⟨hsorted, href, hlruNodup, hdirtyNodup, hplaced, hids⟩ := h
  refine ⟨hlba ▸ hsorted, hcount.trans (hlba ▸ href), hlru ▸ hlruNodup, hdirty ▸ hdirtyNodup,
    fun y => ?_, hlba ▸ hbuf ▸ hids⟩
  obtain ⟨hl, hd, hlisted, hvalid⟩ := hplaced y
  constructor <;> simpa only [hlba, hlru, hdirty, hbuf]

theorem Wf.setDevice (h : Wf c) (x : ℕ) (d : α) : Wf (c.setDevice x d) :=
  h.congr rfl rfl rfl rfl rfl

/-- A buffer nobody references that is dirty may be put on the list. -/
theorem Wf.insertDirtyNode (h : Wf c) (hmem : x ∈ c.lbaRoot) (href : (c.buf x).refctr = 0)
    (hdirty : (c.buf x).dirty = true) : Wf (c.insertDirtyNode x) := by
  unfold Cache.insertDirtyNode
  obtain ⟨hl, hd, -, hvalid⟩ := h.placed x
  by_cases hon : (c.buf x).onDirtyList = true
  · rw [if_pos hon]
    exact h
  rw [if_neg hon]
  have hnot : x ∉ c.dirtyList := fun hn => hon (hd.mp hn).2
  refine h.change (x := x) ⟨fun y hy => by simp [hy], fun y _ => Iff.rfl, fun y _ => Iff.rfl,
    fun y hy => by simp [hy]⟩ h.sorted h.ref_blocks h.lru_nodup
    (List.nodup_cons.mpr ⟨hnot, h.dirty_nodup⟩) ⟨?_, ?_, ?_, ?_⟩ ?_
  · simpa using hl
  · simpa using hmem
  · simp [href, hdirty]
  · simpa using hvalid
  · simpa using h.ids x

/-- A buffer whose flag says whether it is on the list is taken off it. -/
theorem removeDirtyNode_eq (hoff : (c.buf x).onDirtyList = false → x ∉ c.dirtyList) :
    c.removeDirtyNode x = c.takeOff x := by
  unfold Cache.removeDirtyNode takeOff
  by_cases hon : (c.buf x).onDirtyList = true
  · rw [if_pos hon]
  · have hfalse := eq_false_of_ne_true hon
    have hsame : ({ c.buf x with onDirtyList := false } : Buf α) = c.buf x := by
      rw [← hfalse]
    rw [if_neg hon, List.erase_of_not_mem (hoff hfalse), Cache.setBuf, hsame,
      Function.update_eq_self]

/-- Since only dirty buffers are on the list, it does not matter that the source asks first. -/
theorem removeIfDirty_eq (hoff : (c.buf x).onDirtyList = false → x ∉ c.dirtyList)
    (hdirty : (c.buf x).onDirtyList = true → (c.buf x).dirty = true) :
    c.removeIfDirty x = c.takeOff x := by
  rw [← removeDirtyNode_eq hoff, removeIfDirty]
  by_cases hd : (c.buf x).dirty = true
  · rw [if_pos hd]
  · rw [if_neg hd, Cache.removeDirtyNode, if_neg fun hon => hd (hdirty hon)]

theorem Placed.off (h : Placed c x) (hfalse : (c.buf x).onDirtyList = false) : x ∉ c.dirtyList :=
  fun hn => Bool.false_ne_true (hfalse.symm.trans (h.dirty_iff.mp hn).2)

theorem Wf.takeOff (h : Wf c) (x : ℕ) : Wf (c.takeOff x) := by
  obtain ⟨hl, -, -, hvalid⟩ := h.placed x
  refine h.change (x := x) ⟨fun y hy => by simp [hy], fun y _ => Iff.rfl,
    fun y _ => Iff.rfl, fun y hy => List.mem_erase_of_ne hy⟩ h.sorted h.ref_blocks h.lru_nodup
    (h.dirty_nodup.erase x) ⟨?_, ?_, ?_, ?_⟩ ?_
  · simpa using hl
  · simp [h.dirty_nodup.mem_erase_iff]
  · simp
  · simpa using hvalid
  · simpa using h.ids x

/-- A change of the flags of a buffer that is not on the list, or stays dirty. -/
theorem Wf.setFlags (h : Wf c) (x : ℕ) {f : Buf α → Buf α}
    (hid : (f (c.buf x)).lruId = (c.buf x).lruId)
    (href : (f (c.buf x)).refctr = (c.buf x).refctr)
    (hlist : (f (c.buf x)).onDirtyList = (c.buf x).onDirtyList)
    (hdirty : (c.buf x).onDirtyList = true → (c.buf x).dirty = true → (f (c.buf x)).dirty = true)
    (hvalid : ((c.buf x).dirty = true → (c.buf x).uptodate = true) →
      (f (c.buf x)).dirty = true → (f (c.buf x)).uptodate = true) : Wf (c.setBuf x f) :=
  h.setBuf x hid (by rw [href]) hlist (fun hon hm => hdirty hon ((h.placed x).listed hm hon).2)
    fun hd hm => hvalid ((h.placed x).valid hm) hd

/-! ## The operations -/

/-- What dropping a buffer comes to. -/
theorem dropBuf_eq (h : Wf c) (hmem : x ∈ c.lbaRoot) :
    c.dropBuf x = ((c.removeLru x).removeLba x).takeOff x := by
  have hlru : (if (c.buf x).refctr ≠ 0 then c else c.removeLru x) = c.removeLru x := by
    split
    · next href =>
        rw [removeLru, List.erase_of_not_mem fun hn => href ((h.placed x).lru_iff.mp hn).2]
    · rfl
  unfold Cache.dropBuf
  rw [hlru]
  exact removeIfDirty_eq (h.placed x).off fun hon => ((h.placed x).listed hmem hon).2

theorem Wf.dropBuf (h : Wf c) (hmem : x ∈ c.lbaRoot) : Wf (c.dropBuf x) := by
  have hcount : c.refBlocks - 1 = (c.lbaRoot.erase x).length := by
    rw [h.ref_blocks, List.length_erase_of_mem hmem]
  rw [dropBuf_eq h hmem]
  refine h.change (x := x) ⟨fun y hy => by simp [hy], fun y hy => List.mem_erase_of_ne hy,
    fun y hy => List.mem_erase_of_ne hy, fun y hy => List.mem_erase_of_ne hy⟩
    (h.sorted.sublist List.erase_sublist) hcount (h.lru_nodup.erase x) (h.dirty_nodup.erase x)
    ⟨?_, ?_, ?_, ?_⟩ ?_
  · simp [h.nodup.mem_erase_iff, h.lru_nodup.mem_erase_iff]
  · simp [h.nodup.mem_erase_iff, h.dirty_nodup.mem_erase_iff]
  · simp
  · simp [h.nodup.mem_erase_iff]
  · simp [h.nodup.mem_erase_iff]

/-- A buffer that is invalidated stays where it is, but for the list. -/
theorem invalidateBuf_eq (h : Wf c) (hmem : x ∈ c.lbaRoot) : c.invalidateBuf x =
    ((c.setBuf x fun b => { b with endWrite := false }).takeOff x).setBuf x
      fun b => { b with uptodate := false, dirty := false } := by
  unfold Cache.invalidateBuf
  rw [removeIfDirty_eq (by simpa using (h.placed x).off)
    (by simpa using fun hon => ((h.placed x).listed hmem hon).2)]

theorem Wf.invalidateBuf (h : Wf c) (hmem : x ∈ c.lbaRoot) : Wf (c.invalidateBuf x) := by
  have hreport : Wf (c.setBuf x fun b => { b with endWrite := false }) :=
    h.setFlags x rfl rfl rfl (fun _ hd => hd) fun hv => hv
  rw [invalidateBuf_eq h hmem]
  exact (hreport.takeOff x).setFlags x rfl rfl rfl (by simp) (by simp)

/-- What getting a buffer nobody references comes to. -/
theorem findGet_eq (h : Wf c) (hmem : x ∈ c.lbaRoot) (href : (c.buf x).refctr = 0) :
    c.findGet x = (((c.takeId x).removeLru x).takeOff x).incRef x := by
  unfold Cache.findGet
  rw [if_pos href, removeIfDirty_eq (by simpa using (h.placed x).off)
    (by simpa using fun hon => ((h.placed x).listed hmem hon).2)]

/-- A buffer is got: its new id must not be that of another. -/
theorem Wf.findGet (h : Wf c) (hmem : x ∈ c.lbaRoot) (hid : c.FreshId x) : Wf (c.findGet x) := by
  obtain ⟨-, -, hlisted, hvalid⟩ := h.placed x
  by_cases href : (c.buf x).refctr = 0
  · rw [findGet_eq h hmem href]
    refine h.change (x := x) ⟨fun y hy => by simp [incRef, hy],
      fun y _ => Iff.rfl, fun y hy => List.mem_erase_of_ne hy, fun y hy => List.mem_erase_of_ne hy⟩
      h.sorted h.ref_blocks (h.lru_nodup.erase x) (h.dirty_nodup.erase x) ⟨?_, ?_, ?_, ?_⟩ ?_
    · simp [incRef, h.lru_nodup.mem_erase_iff]
    · simp [incRef, h.dirty_nodup.mem_erase_iff]
    · simp [incRef]
    · simpa [incRef] using hvalid
    · simpa [incRef] using fun _ y hy => hid (fun _ => href) y hy
  · unfold Cache.findGet
    rw [if_neg href]
    exact h.setBuf x rfl (by simp [href]) rfl (fun hon hm => (hlisted hm hon).2)
      fun hd hm => hvalid hm hd

theorem Wf.alloc (h : Wf c) (hid : c.FreshId x) (mem : Option α) : Wf (c.alloc x mem).2 := by
  unfold Cache.alloc
  by_cases hmem : x ∈ c.lbaRoot
  · rw [if_pos hmem]
    exact h.findGet hmem hid
  rw [if_neg hmem]
  cases mem with
  | none => exact h
  | some junk =>
      have hlru : x ∉ c.lruRoot := fun hn => hmem ((h.placed x).lru_iff.mp hn).1
      have hlist : x ∉ c.dirtyList := fun hn => hmem ((h.placed x).dirty_iff.mp hn).1
      have hsorted : (c.lbaRoot.orderedInsert (· ≤ ·) x).Pairwise (· < ·) := by
        have hle : (c.lbaRoot.orderedInsert (· ≤ ·) x).Pairwise (· ≤ ·) :=
          (h.sorted.imp Nat.le_of_lt).orderedInsert x _
        have hnodup : (c.lbaRoot.orderedInsert (· ≤ ·) x).Nodup :=
          (List.perm_orderedInsert _ x _).nodup_iff.mpr (List.nodup_cons.mpr ⟨hmem, h.nodup⟩)
        exact (hle.and hnodup).imp fun hlt => Nat.lt_of_le_of_ne hlt.1 hlt.2
      have hcount : c.refBlocks + 1 = (c.lbaRoot.orderedInsert (· ≤ ·) x).length := by
        rw [h.ref_blocks, List.orderedInsert_length]
      refine h.change (x := x) ⟨fun y hy => by simp [incRef, hy],
        fun y hy => by simp [incRef, List.mem_orderedInsert, hy],
        fun y _ => Iff.rfl, fun y _ => Iff.rfl⟩ hsorted hcount h.lru_nodup h.dirty_nodup
        ⟨?_, ?_, ?_, ?_⟩ ?_
      · simpa [incRef, newBuf] using hlru
      · simpa [incRef, newBuf] using hlist
      · simp [incRef, newBuf]
      · simp [incRef, newBuf]
      · simpa [incRef] using fun y hy => hid (fun hm => absurd hm hmem) y hy

/-- A buffer of the journal takes its callback off. -/
theorem Wf.reportWrite (h : Wf c) (x : ℕ) : Wf (c.reportWrite x) := by
  unfold Cache.reportWrite
  split
  · have hset : Wf (c.setBuf x fun b => { b with endWrite := false }) :=
      h.setFlags x rfl rfl rfl (fun _ hd => hd) fun hv => hv
    exact hset.congr rfl rfl rfl rfl rfl
  · exact h

theorem Wf.flushBuf (h : Wf c) (x : ℕ) (w : WriteRes α) : Wf (c.flushBuf x w).2 := by
  unfold Cache.flushBuf
  split
  · cases w with
    | fail left => exact (h.setDevice x left).reportWrite x
    | ok =>
        have hset := h.setDevice x (c.buf x).data
        dsimp only
        rw [removeDirtyNode_eq (hset.placed x).off]
        exact ((hset.takeOff x).setFlags x rfl rfl rfl (by simp) (by simp)).reportWrite x
  · exact h

/-- The last reference goes: the buffer enters the LRU tree, where nobody has its id. -/
theorem Wf.unref (h : Wf c) (hmem : x ∈ c.lbaRoot) (href : (c.buf x).refctr = 1) :
    Wf ((c.decRef x).insertLru x) := by
  obtain ⟨hl, hd, hlisted, hvalid⟩ := h.placed x
  have hout : x ∉ c.lruRoot := fun hn => absurd (href.symm.trans (hl.mp hn).2) Nat.one_ne_zero
  have hoff : (c.buf x).onDirtyList = false := eq_false_of_ne_true fun hon =>
    absurd (href.symm.trans (hlisted hmem hon).1) Nat.one_ne_zero
  have hkey : ¬ ∃ y ∈ (c.decRef x).lruRoot,
      ((c.decRef x).buf y).lruId = ((c.decRef x).buf x).lruId := by
    rintro ⟨y, hy, hid⟩
    have hyx : y ≠ x := fun heq => hout (heq ▸ hy)
    simp only [decRef, setBuf_self, setBuf_of_ne hyx] at hid
    exact h.ids x hmem y ((h.placed y).lru_iff.mp hy).1 hyx hid
  unfold Cache.insertLru
  rw [if_neg hkey]
  refine h.change (x := x) ⟨fun y hy => by simp [decRef, hy], fun y _ => Iff.rfl,
    fun y hy => by simp [decRef, hy], fun y _ => Iff.rfl⟩ h.sorted h.ref_blocks
    (List.nodup_cons.mpr ⟨hout, h.lru_nodup⟩) h.dirty_nodup ⟨?_, ?_, ?_, ?_⟩ ?_
  · simp [decRef, href, hmem]
  · simpa [decRef] using hd
  · simp [decRef, hoff]
  · simpa [decRef] using hvalid
  · simpa [decRef] using h.ids x

/-! What the operations leave of the tree of the blocks, and of the references. -/

@[simp] theorem insertDirtyNode_lbaRoot (c : Cache α) (x : ℕ) :
    (c.insertDirtyNode x).lbaRoot = c.lbaRoot := by
  unfold Cache.insertDirtyNode
  split <;> rfl

@[simp] theorem insertLru_lbaRoot (c : Cache α) (x : ℕ) :
    (c.insertLru x).lbaRoot = c.lbaRoot := by
  unfold Cache.insertLru
  split <;> rfl

@[simp] theorem insertLru_buf (c : Cache α) (x : ℕ) : (c.insertLru x).buf = c.buf := by
  unfold Cache.insertLru
  split <;> rfl

@[simp] theorem removeDirtyNode_lbaRoot (c : Cache α) (x : ℕ) :
    (c.removeDirtyNode x).lbaRoot = c.lbaRoot := by
  unfold Cache.removeDirtyNode
  split <;> rfl

@[simp] theorem reportWrite_lbaRoot (c : Cache α) (x : ℕ) :
    (c.reportWrite x).lbaRoot = c.lbaRoot := by
  unfold Cache.reportWrite
  split <;> rfl

@[simp] theorem flushBuf_lbaRoot (c : Cache α) (x : ℕ) (w : WriteRes α) :
    (c.flushBuf x w).2.lbaRoot = c.lbaRoot := by
  unfold Cache.flushBuf
  split
  · cases w <;> simp
  · rfl

@[simp] theorem settle_lbaRoot (c : Cache α) (x : ℕ) (w : WriteRes α) :
    (c.settle x w).lbaRoot = c.lbaRoot := by
  unfold Cache.settle
  split
  · split
    · simp
    · dsimp only
      split <;> simp
  · rfl

theorem Wf.settle (h : Wf c) (hmem : x ∈ c.lbaRoot) (href : (c.buf x).refctr = 0)
    (w : WriteRes α) : Wf (c.settle x w) := by
  unfold Cache.settle
  split
  · next hdirty =>
      split
      · exact h.insertDirtyNode hmem href hdirty.1
      · have hflush := h.flushBuf x w
        have hlatched : Wf (if (c.flushBuf x w).1 = .EOK then (c.flushBuf x w).2
            else (c.flushBuf x w).2.setIoErr true) := by
          split
          · exact hflush
          · exact hflush.congr rfl rfl rfl rfl rfl
        exact hlatched.setFlags x rfl rfl rfl (fun _ hd => hd) fun hv => hv
  · exact h

/-- A reference is given back. -/
theorem Wf.free (h : Wf c) (hmem : x ∈ c.lbaRoot) (href : (c.buf x).refctr ≠ 0)
    (w : WriteRes α) : Wf (c.free x w) := by
  unfold Cache.free
  dsimp only
  split
  · next hleft =>
      simp only [decRef, setBuf_self] at hleft
      exact h.setBuf x rfl (by simp only [href, hleft]) rfl
        (fun hon hm => ((h.placed x).listed hm hon).2) fun hd hm => (h.placed x).valid hm hd
  · next hlast =>
      simp only [decRef, setBuf_self, not_not] at hlast
      have hunref := h.unref hmem (by omega)
      have hsettled := hunref.settle (by simpa [decRef] using hmem) (by simp [decRef, hlast]) w
      split
      · exact hsettled.dropBuf (by simpa [decRef] using hmem)
      · exact hsettled

/-! ## Loops and calls -/

/-- What a sequence of steps keeps that ends at the first error. -/
theorem andThen_keeps {σ : Type} {P : σ → Prop} {r : Rc × σ} {k : σ → Rc × σ} (h : P r.2)
    (hk : r.1 = .EOK → P (k r.2).2) : P (andThen r k).2 := by
  unfold andThen
  split
  · next hok => exact hk hok
  · exact h

/-- The cache only lost buffers nobody references, and took no id. -/
structure Shrunk (c c' : Cache α) : Prop where
  ctr : c'.lruCtr = c.lruCtr
  buf : ∀ y ∈ c'.lbaRoot, y ∈ c.lbaRoot ∧ (c'.buf y).lruId = (c.buf y).lruId ∧
    (c'.buf y).refctr = (c.buf y).refctr
  held : ∀ y ∈ c.lbaRoot, (c.buf y).refctr ≠ 0 → y ∈ c'.lbaRoot

theorem Shrunk.refl (c : Cache α) : Shrunk c c := ⟨rfl, fun _ hy => ⟨hy, rfl, rfl⟩, fun _ hy _ => hy⟩

theorem Shrunk.trans {c'' : Cache α} (h : Shrunk c c') (h' : Shrunk c' c'') : Shrunk c c'' := by
  refine ⟨h'.ctr.trans h.ctr, fun y hy => ?_, fun y hy href => ?_⟩
  · obtain ⟨hy', hid', href'⟩ := h'.buf y hy
    obtain ⟨hy, hid, href⟩ := h.buf y hy'
    exact ⟨hy, hid'.trans hid, href'.trans href⟩
  · have hy' := h.held y hy href
    exact h'.held y hy' ((h.buf y hy').2.2 ▸ href)

theorem Shrunk.freshId (h : Shrunk c c') (hid : c.FreshId x) : c'.FreshId x := by
  intro hfree y hy hyx
  have hfree' : x ∈ c.lbaRoot → (c.buf x).refctr = 0 := by
    intro hmem
    by_contra href
    have hmem' := h.held x hmem href
    exact href ((h.buf x hmem').2.2.symm.trans (hfree hmem'))
  rw [(h.buf y hy).2.1, h.ctr]
  exact hid hfree' y (h.buf y hy).1 hyx

/-- Buffers that keep their ids and their references. -/
theorem Shrunk.of_buf (hctr : c'.lruCtr = c.lruCtr) (hlba : c'.lbaRoot = c.lbaRoot)
    (hbuf : ∀ y, (c'.buf y).lruId = (c.buf y).lruId ∧ (c'.buf y).refctr = (c.buf y).refctr) :
    Shrunk c c' :=
  ⟨hctr, fun y hy => ⟨hlba ▸ hy, hbuf y⟩, fun _ hy _ => hlba ▸ hy⟩

theorem Shrunk.setBuf (c : Cache α) (x : ℕ) {f : Buf α → Buf α}
    (hid : (f (c.buf x)).lruId = (c.buf x).lruId)
    (href : (f (c.buf x)).refctr = (c.buf x).refctr) : Shrunk c (c.setBuf x f) := by
  refine .of_buf rfl rfl fun y => ?_
  by_cases hy : y = x
  · subst hy
    simp [hid, href]
  · simp [hy]

theorem Shrunk.takeOff (c : Cache α) (x : ℕ) : Shrunk c (c.takeOff x) := by
  refine .of_buf rfl rfl fun y => ?_
  by_cases hy : y = x
  · subst hy
    simp
  · simp [hy]

theorem Shrunk.setDontShake (c : Cache α) (b : Bool) : Shrunk c (c.setDontShake b) :=
  .of_buf rfl rfl fun _ => ⟨rfl, rfl⟩

theorem Shrunk.setDevice (c : Cache α) (x : ℕ) (d : α) : Shrunk c (c.setDevice x d) :=
  .of_buf rfl rfl fun _ => ⟨rfl, rfl⟩

theorem Shrunk.reportWrite (c : Cache α) (x : ℕ) : Shrunk c (c.reportWrite x) := by
  unfold Cache.reportWrite
  split
  · exact (Shrunk.setBuf c x rfl rfl).trans (.setDontShake _ _)
  · exact .refl c

theorem Wf.flushBuf_shrunk (h : Wf c) (x : ℕ) (w : WriteRes α) : Shrunk c (c.flushBuf x w).2 := by
  unfold Cache.flushBuf
  split
  · cases w with
    | fail left => exact (Shrunk.setDevice c x left).trans (.reportWrite _ x)
    | ok =>
        dsimp only
        rw [removeDirtyNode_eq ((h.setDevice x _).placed x).off]
        exact (((Shrunk.setDevice c x _).trans (.takeOff _ x)).trans (.setBuf _ x rfl rfl)).trans
          (.reportWrite _ x)
  · exact .refl c

theorem Wf.dropBuf_shrunk (h : Wf c) (hmem : x ∈ c.lbaRoot) (href : (c.buf x).refctr = 0) :
    Shrunk c (c.dropBuf x) := by
  rw [dropBuf_eq h hmem]
  refine ⟨rfl, fun y hy => ?_, fun y hy hheld => ?_⟩
  · obtain ⟨hyx, hy⟩ := h.nodup.mem_erase_iff.mp hy
    exact ⟨hy, by simp [hyx]⟩
  · have hyx : y ≠ x := fun heq => hheld (heq ▸ href)
    exact (List.mem_erase_of_ne hyx).mpr hy

/-- A flush asks itself whether the buffer is dirty. -/
theorem flushBuf_ifDirty (c : Cache α) (x : ℕ) (w : WriteRes α) :
    (if (c.buf x).dirty then c.flushBuf x w else (.EOK, c)) = c.flushBuf x w := by
  unfold Cache.flushBuf
  by_cases hd : (c.buf x).dirty = true <;> simp [hd]

/-- The buffer that is evicted is in the cache, and nobody references it. -/
theorem Wf.lowest (h : Wf c) (hlow : c.lowestLru = some x) :
    x ∈ c.lbaRoot ∧ (c.buf x).refctr = 0 :=
  (h.placed x).lru_iff.mp (List.argmin_mem hlow)

/-- After its flush the buffer is still there to be dropped. -/
theorem Wf.evict (h : Wf c) (hlow : c.lowestLru = some x) (w : WriteRes α) :
    Wf ((c.flushBuf x w).2.dropBuf x) ∧ Shrunk c ((c.flushBuf x w).2.dropBuf x) := by
  obtain ⟨hmem, href⟩ := h.lowest hlow
  have hflush := h.flushBuf x w
  have hshrunk := h.flushBuf_shrunk x w
  have hmem' : x ∈ (c.flushBuf x w).2.lbaRoot := by simpa using hmem
  have href' := (hshrunk.buf x hmem').2.2.trans href
  exact ⟨hflush.dropBuf hmem', hshrunk.trans (hflush.dropBuf_shrunk hmem' href')⟩

theorem Wf.shakeLoop (fuel : ℕ) (h : Wf c) (w : ℕ → WriteRes α) :
    Wf (shakeLoop fuel c w).2 ∧ Shrunk c (shakeLoop fuel c w).2 := by
  induction fuel generalizing c with
  | zero => exact ⟨h, .refl c⟩
  | succ fuel ih =>
      unfold Cache.shakeLoop
      split
      · exact ⟨h, .refl c⟩
      · next x hlow =>
          rw [flushBuf_ifDirty]
          obtain ⟨hwf, hshrunk⟩ := h.evict hlow (w x)
          split
          · unfold andThen
            split
            · exact ⟨(ih hwf).1, hshrunk.trans (ih hwf).2⟩
            · exact ⟨h.flushBuf x (w x), h.flushBuf_shrunk x (w x)⟩
          · exact ⟨h, .refl c⟩

theorem Wf.setDontShake (h : Wf c) (b : Bool) : Wf (c.setDontShake b) :=
  h.congr rfl rfl rfl rfl rfl

theorem Wf.setIoErr (h : Wf c) (b : Bool) : Wf (c.setIoErr b) := h.congr rfl rfl rfl rfl rfl

theorem Wf.shake (h : Wf c) (w : ℕ → WriteRes α) : Wf (c.shake w).2 ∧ Shrunk c (c.shake w).2 := by
  unfold Cache.shake
  split
  · exact ⟨h, .refl c⟩
  · obtain ⟨hwf, hshrunk⟩ := (h.setDontShake true).shakeLoop c.lruRoot.length w
    exact ⟨hwf.setDontShake false,
      ((Shrunk.setDontShake c true).trans hshrunk).trans (.setDontShake _ false)⟩

theorem Wf.getNoreadAt (h : Wf c) (hid : c.FreshId x) (mem : Option α) (w : ℕ → WriteRes α) :
    Wf (c.getNoreadAt x mem w).2 := by
  obtain ⟨hwf, hshrunk⟩ := h.shake w
  exact andThen_keeps hwf fun _ => hwf.alloc (hshrunk.freshId hid) mem

@[simp] theorem removeIfDirty_lbaRoot (c : Cache α) (x : ℕ) :
    (c.removeIfDirty x).lbaRoot = c.lbaRoot := by
  unfold Cache.removeIfDirty
  split <;> simp

@[simp] theorem findGet_lbaRoot (c : Cache α) (x : ℕ) : (c.findGet x).lbaRoot = c.lbaRoot := by
  unfold Cache.findGet incRef
  split <;> simp

/-- A buffer that was got is in the cache, and referenced. -/
theorem findGet_held (hmem : x ∈ c.lbaRoot) :
    x ∈ (c.findGet x).lbaRoot ∧ ((c.findGet x).buf x).refctr ≠ 0 := by
  refine ⟨by simpa using hmem, ?_⟩
  simp [findGet, incRef]

theorem alloc_held {mem : Option α} (hok : (c.alloc x mem).1 = .EOK) :
    x ∈ (c.alloc x mem).2.lbaRoot ∧ ((c.alloc x mem).2.buf x).refctr ≠ 0 := by
  unfold Cache.alloc at hok ⊢
  by_cases hmem : x ∈ c.lbaRoot
  · simp only [if_pos hmem]
    exact findGet_held hmem
  · simp only [if_neg hmem] at hok ⊢
    cases mem with
    | none => cases hok
    | some junk => simp [incRef, List.mem_orderedInsert]

theorem getNoreadAt_held {mem : Option α} {w : ℕ → WriteRes α}
    (hok : (c.getNoreadAt x mem w).1 = .EOK) :
    x ∈ (c.getNoreadAt x mem w).2.lbaRoot ∧ ((c.getNoreadAt x mem w).2.buf x).refctr ≠ 0 := by
  unfold Cache.getNoreadAt andThen at hok ⊢
  split
  · next hshake =>
      rw [if_pos hshake] at hok
      exact alloc_held hok
  · next hshake =>
      rw [if_neg hshake] at hok
      exact absurd hok hshake

theorem Wf.fill (h : Wf c) (hmem : x ∈ c.lbaRoot) (href : (c.buf x).refctr ≠ 0) (readOk : Bool)
    (w : WriteRes α) : Wf (c.fill x readOk w).2 := by
  unfold Cache.fill
  split
  · exact h
  · split
    · dsimp only
      exact h.setFlags x rfl rfl rfl (fun _ hd => hd) fun _ _ => rfl
    · exact h.free hmem href w

theorem Wf.flushLba (h : Wf c) (hid : c.FreshId x) (w w' : WriteRes α) :
    Wf (c.flushLba x w w').2 := by
  unfold Cache.flushLba
  split
  · next hmem =>
      have hget := h.findGet hmem hid
      obtain ⟨hmem', hheld⟩ := findGet_held hmem
      have hshrunk := hget.flushBuf_shrunk x w
      have hmem'' := hshrunk.held x hmem' hheld
      exact (hget.flushBuf x w).free hmem'' ((hshrunk.buf x hmem'').2.2 ▸ hheld) w'
  · exact h

theorem Wf.cacheFlushLoop (fuel : ℕ) (h : Wf c) (w : ℕ → WriteRes α) :
    Wf (cacheFlushLoop fuel c w).2 := by
  induction fuel generalizing c with
  | zero => exact h
  | succ fuel ih =>
      unfold Cache.cacheFlushLoop
      split
      · exact h
      · next x _ _ => exact andThen_keeps (h.flushBuf x (w x)) fun _ => ih (h.flushBuf x (w x))

theorem Wf.cacheFlush (h : Wf c) (w : ℕ → WriteRes α) : Wf (c.cacheFlush w).2 :=
  andThen_keeps (h.cacheFlushLoop _ w) fun _ => (h.cacheFlushLoop _ w).setIoErr false

theorem Wf.writeBack (h : Wf c) (on : Bool) (w : ℕ → WriteRes α) : Wf (c.writeBack on w).2 := by
  have hset : ∀ n, Wf (c.setWriteBack n) := fun n => h.congr rfl rfl rfl rfl rfl
  unfold Cache.writeBack
  generalize (if on = true then c.cacheWriteBack + 1 else c.cacheWriteBack - 1) = n
  dsimp only
  split
  · exact hset n
  · exact (hset n).cacheFlush w

/-- A buffer is got and, if need be, read. -/
theorem Wf.fetch (h : Wf c) (hid : c.FreshId x) (mem : Option α) (readOk : Bool)
    (w : ℕ → WriteRes α) (w' : WriteRes α) :
    Wf (andThen (c.getNoreadAt x mem w) fun c' => c'.fill x readOk w').2 := by
  have hgot := h.getNoreadAt hid mem w
  refine andThen_keeps hgot fun hok => ?_
  obtain ⟨hmem, href⟩ := getNoreadAt_held hok
  exact hgot.fill hmem href readOk w'

/-- The checks of `ext4_block_get_noread` come first, and change nothing. -/
theorem getNoread_eq (c : Cache α) (x : ℕ) (mem : Option α) (w : ℕ → WriteRes α) :
    c.getNoread x mem w =
      if x < c.lgBcnt ∧ x ≠ 0 then c.getNoreadAt x mem w else (Rc.ENXIO, c) := by
  unfold Cache.getNoread
  split_ifs <;> grind

theorem Wf.getNoread (h : Wf c) (hid : c.FreshId x) (mem : Option α) (w : ℕ → WriteRes α) :
    Wf (c.getNoread x mem w).2 := by
  rw [getNoread_eq]
  split
  · exact h.getNoreadAt hid mem w
  · exact h

theorem Wf.get (h : Wf c) (hid : c.FreshId x) (mem : Option α) (readOk : Bool)
    (w : ℕ → WriteRes α) : Wf (c.get x mem readOk w).2 := by
  unfold Cache.get
  rw [getNoread_eq]
  split
  · exact h.fetch hid mem readOk w (w x)
  · exact h

theorem Wf.getSb (h : Wf c) (hid : c.FreshId c.sbLba) (mem : Option α) (readOk : Bool)
    (w : ℕ → WriteRes α) : Wf (c.getSb mem readOk w).2 := by
  unfold Cache.getSb
  split
  · exact h
  · exact h.fetch hid mem readOk w (w c.sbLba)

/-! ## Those who hold a buffer -/

theorem Wf.modify (h : Wf c) (x : ℕ) (d : α) : Wf (c.modify x d) :=
  h.setFlags x rfl rfl rfl (fun _ _ => rfl) fun _ _ => rfl

theorem Wf.mark (h : Wf c) (x : ℕ) (flush tmp endWrite : Bool) :
    Wf (c.mark x flush tmp endWrite) :=
  h.setFlags x rfl rfl rfl (fun _ hd => hd) fun hv => hv

/-! ## Ranges, and writes past the cache -/

@[simp] theorem invalidateBuf_lbaRoot (c : Cache α) (x : ℕ) :
    (c.invalidateBuf x).lbaRoot = c.lbaRoot := by
  simp [Cache.invalidateBuf]

theorem Wf.invalidateAll {l : List ℕ} (h : Wf c) (hsub : ∀ x ∈ l, x ∈ c.lbaRoot) :
    Wf (l.foldl Cache.invalidateBuf c) := by
  induction l generalizing c with
  | nil => exact h
  | cons x rest ih =>
      refine ih (h.invalidateBuf (hsub x (List.mem_cons_self ..))) fun y hy => ?_
      rw [invalidateBuf_lbaRoot]
      exact hsub y (List.mem_cons_of_mem x hy)

theorem mem_lbaRoot_of_mem_walkFrom {first cnt : ℕ} (hx : x ∈ c.walkFrom first cnt) :
    x ∈ c.lbaRoot :=
  (List.dropWhile_sublist _).subset ((List.takeWhile_sublist _).subset hx)

theorem Wf.invalidateLba (h : Wf c) (first cnt : ℕ) : Wf (c.invalidateLba first cnt) :=
  h.invalidateAll fun _ hx => mem_lbaRoot_of_mem_walkFrom hx

theorem Wf.updateIfCached (h : Wf c) (x : ℕ) (f : α → α) : Wf (c.updateIfCached x f) := by
  unfold Cache.updateIfCached
  split
  · exact h.setFlags x rfl rfl rfl (fun _ hd => hd) fun hv => hv
  · exact h

theorem Wf.updateAll (h : Wf c) (d : ℕ → α) (l : List ℕ) :
    Wf (l.foldl (fun c x => c.updateIfCached x fun _ => d x) c) := by
  induction l generalizing c with
  | nil => exact h
  | cons x rest ih => exact ih (h.updateIfCached x _)

theorem Wf.setDirect (h : Wf c) (first cnt : ℕ) (d : ℕ → α) (left : Option (ℕ → α)) :
    Wf (c.setDirect first cnt d left).2 := by
  cases left with
  | none => exact h.congr rfl rfl rfl rfl rfl
  | some left => exact h.congr rfl rfl rfl rfl rfl

theorem Wf.bridgeFlushRun (h : Wf c) (first cnt : ℕ) (d : ℕ → α) (left : Option (ℕ → α)) :
    Wf (c.bridgeFlushRun first cnt d left).2 :=
  andThen_keeps (h.setDirect first cnt d left) fun _ =>
    (h.setDirect first cnt d left).updateAll d _

theorem Wf.writePart (h : Wf c) (x : ℕ) (f : α → α) (left : Option α) :
    Wf (c.writePart x f left).2 := by
  cases left with
  | none => exact (h.setDevice x _).updateIfCached x f
  | some left => exact h.setDevice x left

theorem Wf.setDirectInvalidate (h : Wf c) (first cnt : ℕ) (d : ℕ → α) (left : Option (ℕ → α))
    (always : Bool) : Wf (c.setDirectInvalidate first cnt d left always).2 := by
  unfold Cache.setDirectInvalidate
  dsimp only
  split
  · exact (h.setDirect first cnt d left).invalidateLba first cnt
  · exact h.setDirect first cnt d left

end Cache

end Bcache

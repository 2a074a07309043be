import Mathlib.Data.Nat.Count
import OpenExt4.Ialloc.Alloc

set_option autoImplicit false

/-! # Groups whose counters tell their bitmap

What a look at a group leaves of it, and what taking an inode and giving it back do to its counters,
for groups that were consistent before. -/

namespace Ext4.OnMedium

open Bytes Ext4b

/-! ## Counting -/

section Count

variable {p q : ℕ → Prop} [DecidablePred p] [DecidablePred q] {m : ℕ}

theorem count_congr (h : ∀ i < m, p i ↔ q i) : Nat.count p m = Nat.count q m := by
  rw [Nat.count_eq_card_filter_range, Nat.count_eq_card_filter_range]
  congr 1
  exact Finset.filter_congr fun i hi => h i (Finset.mem_range.mp hi)

/-- One number more. -/
theorem count_insert {i : ℕ} (hi : i < m) (hp : ¬ p i) (h : ∀ j < m, q j ↔ p j ∨ j = i) :
    Nat.count q m = Nat.count p m + 1 := by
  have hfilter : (Finset.range m).filter q = insert i ((Finset.range m).filter p) := by
    ext j
    rw [Finset.mem_insert, Finset.mem_filter, Finset.mem_filter, Finset.mem_range]
    constructor
    · rintro ⟨hj, hq⟩
      rcases (h j hj).mp hq with hpj | rfl
      · exact .inr ⟨hj, hpj⟩
      · exact .inl rfl
    · rintro (rfl | ⟨hj, hpj⟩)
      · exact ⟨hi, (h j hi).mpr (.inr rfl)⟩
      · exact ⟨hj, (h j hj).mpr (.inl hpj)⟩
  rw [Nat.count_eq_card_filter_range, Nat.count_eq_card_filter_range, hfilter,
    Finset.card_insert_of_notMem fun hmem => hp (Finset.mem_filter.mp hmem).2]

theorem exists_of_count_ne_zero (h : Nat.count p m ≠ 0) : ∃ i < m, p i := by
  by_contra hnone
  push Not at hnone
  exact h ((count_congr (q := fun _ => False) fun i hi => iff_of_false (hnone i hi) id).trans
    (Nat.count_false m))

end Count

/-! ## Consistent groups -/

variable {s : Sblock} {crc32c : List UInt8 → ℕ} {n : ℕ} {dirs : ℕ → Bool} {g : ℕ}

/-- The number of the inode of bit `i` of group `g`. -/
def inodeAt (s : Sblock) (g i : ℕ) : ℕ := g * s.inodesPerGroup + i + 1

/-- No access to the group fails. -/
structure InodeGroup.Readable (bg : InodeGroup n) : Prop where
  descErr : bg.descErr = none
  blockBitmapErr : bg.blockBitmapErr = none
  noreadErr : bg.noreadErr = none
  tableErr : bg.tableErr = none
  bitmapErr : bg.bitmapErr = none

/-- The group can be read, its bitmap, if it is built, verifies, and each counter tells what the
    bitmap says: the clear bits, the directories among the inodes in use, and a tail of the inode
    table that no inode in use lies in. -/
structure InodeGroup.Consistent (s : Sblock) (crc32c : List UInt8 → ℕ) (dirs : ℕ → Bool) (g : ℕ)
    (bg : InodeGroup n) : Prop where
  readable : bg.Readable
  verifies : bg.inodeUninit = false → ext4IallocVerifyBitmapCsum s crc32c bg.bitmap bg = true
  free : bg.freeInodes = Nat.count (fun i => bg.used i = false) s.inodesPerGroup
  usedDirs : bg.usedDirs
    = Nat.count (fun i => bg.used i = true ∧ dirs (inodeAt s g i) = true) s.inodesPerGroup
  unused_le : bg.itableUnused ≤ s.inodesPerGroup
  unused : ∀ i < s.inodesPerGroup, s.inodesPerGroup - bg.itableUnused ≤ i → bg.used i = false
  free_room : bg.freeInodes < counterRoom s
  dirs_room : bg.usedDirs < counterRoom s
  unused_room : bg.itableUnused < counterRoom s

/-- The same inodes in use and the same counters. -/
structure Unchanged (s : Sblock) (bg bg' : InodeGroup n) : Prop where
  used : ∀ i < s.inodesPerGroup, bg'.used i = bg.used i
  freeInodes : bg'.freeInodes = bg.freeInodes
  usedDirs : bg'.usedDirs = bg.usedDirs
  itableUnused : bg'.itableUnused = bg.itableUnused

variable {bg bg' bg'' : InodeGroup n}

theorem Unchanged.refl (bg : InodeGroup n) : Unchanged s bg bg := ⟨fun _ _ => rfl, rfl, rfl, rfl⟩

theorem Unchanged.trans (h : Unchanged s bg bg') (h' : Unchanged s bg' bg'') :
    Unchanged s bg bg'' :=
  ⟨fun i hi => (h'.used i hi).trans (h.used i hi), h'.freeInodes.trans h.freeInodes,
    h'.usedDirs.trans h.usedDirs, h'.itableUnused.trans h.itableUnused⟩

/-- The counters tell a directory that is not in use nothing. -/
theorem InodeGroup.Consistent.congr {dirs' : ℕ → Bool} (h : bg.Consistent s crc32c dirs g)
    (hdirs : ∀ i < s.inodesPerGroup, bg.used i = true →
      dirs' (inodeAt s g i) = dirs (inodeAt s g i)) : bg.Consistent s crc32c dirs' g where
  __ := h
  usedDirs := by
    rw [h.usedDirs]
    exact count_congr fun i hi => and_congr_right fun hused => by rw [hdirs i hi hused]

/-- A group that tells the same is as consistent. -/
theorem InodeGroup.Consistent.of_unchanged (h : bg.Consistent s crc32c dirs g)
    (hsame : Unchanged s bg bg') (hreadable : bg'.Readable)
    (hverifies : bg'.inodeUninit = false →
      ext4IallocVerifyBitmapCsum s crc32c bg'.bitmap bg' = true) :
    bg'.Consistent s crc32c dirs g where
  readable := hreadable
  verifies := hverifies
  free := by
    rw [hsame.freeInodes, h.free]
    exact count_congr fun i hi => by rw [hsame.used i hi]
  usedDirs := by
    rw [hsame.usedDirs, h.usedDirs]
    exact count_congr fun i hi => by rw [hsame.used i hi]
  unused_le := by rw [hsame.itableUnused]; exact h.unused_le
  unused := fun i hi hle => by
    rw [hsame.itableUnused] at hle
    rw [hsame.used i hi]
    exact h.unused i hi hle
  free_room := by rw [hsame.freeInodes]; exact h.free_room
  dirs_room := by rw [hsame.usedDirs]; exact h.dirs_room
  unused_room := by rw [hsame.itableUnused]; exact h.unused_room

/-! ## Looking at a group -/

/-- A checksum is stored without touching anything else. -/
theorem setBitmapCsum_eq (s : Sblock) (crc32c : List UInt8 → ℕ) (bmap : Buf n)
    (bg : InodeGroup n) : ∃ lo hi, ext4IallocSetBitmapCsum s crc32c bmap bg
      = { bg with csumLo := lo, csumHi := hi } := by
  unfold ext4IallocSetBitmapCsum
  split
  · exact ⟨_, _, rfl⟩
  · exact ⟨bg.csumLo, bg.csumHi, rfl⟩

/-- A checksum that was just stored verifies. -/
theorem verifies_setBitmapCsum (s : Sblock) (crc32c : List UInt8 → ℕ) (bmap : Buf n)
    (bg : InodeGroup n) :
    ext4IallocVerifyBitmapCsum s crc32c bmap (ext4IallocSetBitmapCsum s crc32c bmap bg) = true := by
  unfold ext4IallocVerifyBitmapCsum ext4IallocSetBitmapCsum
  cases hcsum : metadataCsum s with
  | false => rfl
  | true =>
      by_cases hlong : ext4SbGetDescSize s = EXT4_MAX_BLOCK_GROUP_DESCRIPTOR_SIZE <;> simp [hlong]

theorem bit_foldl_bmapBitSet {l : List ℕ} {bmap : Buf n} {j : ℕ} (hl : ∀ i ∈ l, i < 8 * n ∧ i ≠ j) :
    bit (l.foldl bmapBitSet bmap) j = bit bmap j := by
  induction l generalizing bmap with
  | nil => rfl
  | cons i rest ih =>
      have hi := hl i List.mem_cons_self
      rw [List.foldl_cons, ih fun k hk => hl k (List.mem_cons_of_mem _ hk), bit_bmapBitSet hi.1,
        decide_eq_false hi.2.symm, Bool.false_or]

/-- The bitmap that is built says that no inode of the group is in use. -/
theorem bit_emptyInodeBitmap (hgate : Gate s) (bmap : Buf s.blockSize) {i : ℕ}
    (hi : i < s.inodesPerGroup) : bit (emptyInodeBitmap s bmap) i = false := by
  have hle := hgate.inodes_per_group_le
  have hzero : bit (patch bmap 0 ((s.inodesPerGroup + 7) / 8) fun _ => 0) i = false := by
    rw [bit_patch_zero (by omega), decide_eq_true (by omega), Bool.not_true, Bool.and_false]
  have hfold : bit ((List.range' s.inodesPerGroup
      ((s.inodesPerGroup + 7) / 8 * 8 - s.inodesPerGroup)).foldl bmapBitSet
        (patch bmap 0 ((s.inodesPerGroup + 7) / 8) fun _ => 0)) i = false := by
    rw [bit_foldl_bmapBitSet, hzero]
    intro k hk
    rw [List.mem_range'_1] at hk
    omega
  unfold emptyInodeBitmap
  dsimp only
  split
  · rw [bit_patch_of_ne (by omega), hfold]
  · exact hfold

theorem buildBlockBitmap_eq (h : bg.blockBitmapErr = none) :
    buildBlockBitmap bg = (none, { bg with blockUninit := false }) := by
  unfold buildBlockBitmap
  by_cases huninit : bg.blockUninit = true
  · rw [if_pos huninit]
    split
    · next e he => simp [h] at he
    · rfl
  · rw [if_neg huninit, ← Bool.eq_false_of_not_eq_true huninit]

theorem buildInodeTable_eq (h : bg.tableErr = none) :
    buildInodeTable bg = (none, { bg with itableZeroed := true }) := by
  unfold buildInodeTable
  by_cases hzeroed : bg.itableZeroed = true
  · rw [if_pos hzeroed, ← hzeroed]
  · rw [if_neg hzeroed]
    split
    · next e he => simp [h] at he
    · rfl

theorem ext4FsInitInodeBitmap_eq (h : bg.noreadErr = none) :
    ∃ lo hi, ext4FsInitInodeBitmap s crc32c bg = (none,
        { bg with bitmap := emptyInodeBitmap s bg.bitmap, csumLo := lo, csumHi := hi }) ∧
      ext4IallocVerifyBitmapCsum s crc32c (emptyInodeBitmap s bg.bitmap)
        { bg with csumLo := lo, csumHi := hi } = true := by
  have hverifies := verifies_setBitmapCsum s crc32c (emptyInodeBitmap s bg.bitmap)
    { bg with bitmap := emptyInodeBitmap s bg.bitmap }
  obtain ⟨lo, hi, hset⟩ := setBitmapCsum_eq s crc32c (emptyInodeBitmap s bg.bitmap)
    { bg with bitmap := emptyInodeBitmap s bg.bitmap }
  refine ⟨lo, hi, ?_, ?_⟩
  · unfold ext4FsInitInodeBitmap
    split
    · next e he => simp [h] at he
    · exact congrArg (Prod.mk none) hset
  · rw [hset] at hverifies
    exact hverifies

/-- An inode bitmap that is built tells the same as before. -/
theorem buildInodeBitmap_consistent {bg : InodeGroup s.blockSize} (hgate : Gate s)
    (h : bg.Consistent s crc32c dirs g) :
    ∃ bg', buildInodeBitmap s crc32c bg = (none, bg') ∧ bg'.inodeUninit = false ∧
      Unchanged s bg bg' ∧ bg'.Consistent s crc32c dirs g := by
  unfold buildInodeBitmap
  by_cases huninit : bg.inodeUninit = true
  · obtain ⟨hdesc, hblock, hnoread, htable, hbitmap⟩ := h.readable
    obtain ⟨lo, hi, hinit, hverifies⟩ := ext4FsInitInodeBitmap_eq hnoread
    rw [if_pos huninit, hinit]
    dsimp only
    rw [buildInodeTable_eq (by exact htable)]
    have hsame : Unchanged s bg { bg with
        inodeUninit := false, itableZeroed := true, bitmap := emptyInodeBitmap s bg.bitmap,
        csumLo := lo, csumHi := hi } := by
      refine ⟨fun i hi => ?_, rfl, rfl, rfl⟩
      simp [InodeGroup.used, huninit, bit_emptyInodeBitmap hgate bg.bitmap hi]
    exact ⟨_, rfl, rfl, hsame, h.of_unchanged hsame ⟨hdesc, hblock, hnoread, htable, hbitmap⟩
      fun _ => hverifies⟩
  · rw [if_neg huninit]
    exact ⟨bg, rfl, Bool.eq_false_of_not_eq_true huninit, .refl bg, h⟩

/-- **A look at a consistent group** builds what is not there yet and changes nothing else. -/
theorem getBlockGroupRef_consistent {bg : InodeGroup s.blockSize} (hgate : Gate s)
    (h : bg.Consistent s crc32c dirs g) :
    ∃ bg', ext4FsGetBlockGroupRef s crc32c bg = (none, bg') ∧ bg'.inodeUninit = false ∧
      Unchanged s bg bg' ∧ bg'.Consistent s crc32c dirs g := by
  have hsame : Unchanged s bg { bg with blockUninit := false } := ⟨fun _ _ => rfl, rfl, rfl, rfl⟩
  obtain ⟨hdesc, hblock, hnoread, htable, hbitmap⟩ := h.readable
  have hbuilt := h.of_unchanged hsame ⟨hdesc, hblock, hnoread, htable, hbitmap⟩ h.verifies
  obtain ⟨bg', hbuild, hinit, hsame', hcons⟩ := buildInodeBitmap_consistent hgate hbuilt
  refine ⟨bg', ?_, hinit, hsame.trans hsame', hcons⟩
  unfold ext4FsGetBlockGroupRef
  split
  · next e he => simp [hdesc] at he
  · rw [buildBlockBitmap_eq hblock]
    exact hbuild

/-! ## Taking an inode -/

theorem stored_eq {cnt : ℕ} (h : cnt < counterRoom s) : stored s cnt = cnt := by
  have hroom : counterRoom s ≤ 2 ^ 32 := by
    unfold counterRoom
    split <;> decide
  rw [stored, Nat.mod_eq_of_lt (h.trans_le hroom), Nat.mod_eq_of_lt h]

theorem sub32_eq {a b : ℕ} (hle : b ≤ a) (ha : a < 2 ^ 32) : sub32 a b = a - b := by
  unfold sub32
  omega

theorem counterRoom_le (s : Sblock) : counterRoom s ≤ 2 ^ 32 := by
  unfold counterRoom
  split <;> decide

/-- The fields of a group an inode of which is taken. -/
theorem takeInGroup_eq (bg : InodeGroup n) (idx : ℕ) (isDir : Bool) :
    ∃ lo hi, takeInGroup s crc32c bg g idx isDir = { bg with
        bitmap := bmapBitSet bg.bitmap idx, csumLo := lo, csumHi := hi,
        freeInodes := stored s (sub32 bg.freeInodes 1),
        usedDirs := if isDir then stored s (bg.usedDirs + 1) else bg.usedDirs,
        itableUnused :=
          if sub32 (ext4InodesInGroupCnt s g) bg.itableUnused ≤ idx then
            stored s (sub32 (ext4InodesInGroupCnt s g) (idx + 1))
          else bg.itableUnused } ∧
      ext4IallocVerifyBitmapCsum s crc32c (bmapBitSet bg.bitmap idx)
        { bg with csumLo := lo, csumHi := hi } = true := by
  have hverifies := verifies_setBitmapCsum s crc32c (bmapBitSet bg.bitmap idx)
    { bg with bitmap := bmapBitSet bg.bitmap idx }
  obtain ⟨lo, hi, hset⟩ := setBitmapCsum_eq s crc32c (bmapBitSet bg.bitmap idx)
    { bg with bitmap := bmapBitSet bg.bitmap idx }
  rw [hset] at hverifies
  refine ⟨lo, hi, ?_, hverifies⟩
  unfold takeInGroup
  dsimp only
  rw [hset]

/-- What the counters of a consistent group say once the inode of bit `i` is taken. -/
structure Took (s : Sblock) (bg bg' : InodeGroup n) (i : ℕ) (isDir : Bool) : Prop where
  used : ∀ j < s.inodesPerGroup, bg'.used j = (bg.used j || decide (j = i))
  freeInodes : bg'.freeInodes + 1 = bg.freeInodes
  usedDirs : bg'.usedDirs = if isDir then stored s (bg.usedDirs + 1) else bg.usedDirs
  itableUnused : bg'.itableUnused = min bg.itableUnused (s.inodesPerGroup - (i + 1))

theorem took_takeInGroup {bg : InodeGroup s.blockSize} (hgate : Gate s)
    (hcount : ext4InodesInGroupCnt s g = s.inodesPerGroup) (h : bg.Consistent s crc32c dirs g)
    (hinit : bg.inodeUninit = false) {i : ℕ} (hi : i < s.inodesPerGroup)
    (hclear : bg.used i = false) (isDir : Bool) :
    Took s bg (takeInGroup s crc32c bg g i isDir) i isDir := by
  obtain ⟨lo, hi', htake, -⟩ := @takeInGroup_eq s crc32c _ g bg i isDir
  have hipg := hgate.inodes_per_group_le
  have hroom := counterRoom_le s
  have hlt : s.inodesPerGroup < 2 ^ 32 := rd32_lt _ _
  have hunused := h.unused_le
  have hfree : bg.freeInodes ≠ 0 := by
    rw [h.free, Nat.count_eq_card_filter_range]
    exact Finset.card_ne_zero_of_mem (Finset.mem_filter.mpr ⟨Finset.mem_range.mpr hi, hclear⟩)
  rw [htake]
  constructor
  · intro j hj
    simp [InodeGroup.used, hinit, bit_bmapBitSet (show i < 8 * s.blockSize by omega) j,
      Bool.or_comm]
  · have hfreeRoom := h.free_room
    dsimp only
    rw [sub32_eq (by omega) (by omega), stored_eq (by omega)]
    omega
  · rfl
  · have hunusedRoom := h.unused_room
    dsimp only
    rw [hcount, sub32_eq hunused hlt]
    split
    · rw [sub32_eq (by omega) hlt, stored_eq (by omega)]
      omega
    · omega

/-- A group that was looked at before tells the same of what was taken from it. -/
theorem Unchanged.took {i : ℕ} {isDir : Bool} (h : Unchanged s bg bg')
    (htook : Took s bg' bg'' i isDir) : Took s bg bg'' i isDir where
  used j hj := by rw [htook.used j hj, h.used j hj]
  freeInodes := by rw [htook.freeInodes, h.freeInodes]
  usedDirs := by rw [htook.usedDirs, h.usedDirs]
  itableUnused := by rw [htook.itableUnused, h.itableUnused]

/-- A group that lost an inode is consistent, if it has room to count its directories. -/
theorem Took.consistent {i : ℕ} {isDir : Bool} (htook : Took s bg bg' i isDir)
    (h : bg.Consistent s crc32c dirs g) (hi : i < s.inodesPerGroup) (hclear : bg.used i = false)
    (hroom : isDir = true → bg.usedDirs + 1 < counterRoom s) (hreadable : bg'.Readable)
    (hverifies : bg'.inodeUninit = false →
      ext4IallocVerifyBitmapCsum s crc32c bg'.bitmap bg' = true) :
    bg'.Consistent s crc32c (Function.update dirs (inodeAt s g i) isDir) g := by
  have hinj (j : ℕ) (hj : inodeAt s g j = inodeAt s g i) : j = i := by
    unfold inodeAt at hj
    omega
  have hdirs : bg'.usedDirs = Nat.count (fun j => bg'.used j = true ∧
      Function.update dirs (inodeAt s g i) isDir (inodeAt s g j) = true) s.inodesPerGroup := by
    rw [htook.usedDirs]
    cases isDir with
    | false =>
        rw [if_neg Bool.false_ne_true, h.usedDirs]
        refine count_congr fun j hj => ?_
        by_cases hji : j = i
        · subst hji
          simp [hclear]
        · rw [htook.used j hj, Function.update_of_ne fun heq => hji (hinj j heq)]
          simp [hji]
    | true =>
        rw [if_pos rfl, stored_eq (hroom rfl), h.usedDirs]
        refine (count_insert hi (fun hdir => by simp [hclear] at hdir) fun j hj => ?_).symm
        by_cases hji : j = i
        · subst hji
          simp [htook.used j hj]
        · rw [htook.used j hj, Function.update_of_ne fun heq => hji (hinj j heq)]
          simp [hji]
  have hfree := htook.freeInodes
  have hunused := htook.itableUnused
  have hunusedLe := h.unused_le
  constructor
  · exact hreadable
  · exact hverifies
  · have hcount := count_insert (p := fun j => bg'.used j = false) (q := fun j => bg.used j = false)
      hi (by simp [htook.used i hi]) fun j hj => by
        rw [htook.used j hj]
        by_cases hji : j = i
        · subst hji
          simp [hclear]
        · simp [hji]
    have hcons := h.free
    omega
  · exact hdirs
  · omega
  · intro j hj hle
    rw [htook.used j hj, h.unused j hj (by omega), Bool.false_or, decide_eq_false (by omega)]
  · have := h.free_room
    omega
  · rw [htook.usedDirs]
    cases isDir with
    | false => exact h.dirs_room
    | true =>
        rw [if_pos rfl, stored_eq (hroom rfl)]
        exact hroom rfl
  · have := h.unused_room
    omega

/-- A group an inode of which is taken stays readable, and its bitmap verifies. -/
theorem takeInGroup_readable (h : bg.Readable) (idx : ℕ) (isDir : Bool) :
    (takeInGroup s crc32c bg g idx isDir).Readable ∧
      ext4IallocVerifyBitmapCsum s crc32c (takeInGroup s crc32c bg g idx isDir).bitmap
        (takeInGroup s crc32c bg g idx isDir) = true ∧
      (takeInGroup s crc32c bg g idx isDir).inodeUninit = bg.inodeUninit := by
  obtain ⟨lo, hi, htake, hverifies⟩ := takeInGroup_eq (g := g) bg idx isDir
  obtain ⟨hdesc, hblock, hnoread, htable, hbitmap⟩ := h
  rw [htake]
  exact ⟨⟨hdesc, hblock, hnoread, htable, hbitmap⟩, hverifies, rfl⟩

/-- The tail of the table without inodes in use begins right behind the last one in use. -/
def UnusedExact (s : Sblock) (bg : InodeGroup n) : Prop :=
  bg.itableUnused < s.inodesPerGroup → bg.used (s.inodesPerGroup - bg.itableUnused - 1) = true

theorem Unchanged.unusedExact (h : Unchanged s bg bg') (hexact : UnusedExact s bg) :
    UnusedExact s bg' := by
  intro hlt
  rw [h.itableUnused] at hlt ⊢
  rw [h.used _ (by omega)]
  exact hexact hlt

theorem Took.unusedExact {i : ℕ} {isDir : Bool} (h : Took s bg bg' i isDir)
    (hi : i < s.inodesPerGroup) (hexact : UnusedExact s bg) : UnusedExact s bg' := by
  intro hlt
  rw [h.used _ (by omega), h.itableUnused]
  by_cases hle : bg.itableUnused ≤ s.inodesPerGroup - (i + 1)
  · rw [min_eq_left hle, hexact (by omega), Bool.true_or]
  · rw [min_eq_right (by omega), decide_eq_true (by omega), Bool.or_true]

/-! ## Giving it back -/

/-- What the counters of a group say once the inode of bit `i` is given back. -/
structure Gave (s : Sblock) (bg bg' : InodeGroup n) (i : ℕ) (isDir : Bool) : Prop where
  used : ∀ j < s.inodesPerGroup, bg'.used j = (!decide (j = i) && bg.used j)
  freeInodes : bg'.freeInodes = stored s (bg.freeInodes + 1)
  usedDirs : bg'.usedDirs = if isDir then stored s (sub32 bg.usedDirs 1) else bg.usedDirs

theorem gave_giveInGroup {bg : InodeGroup s.blockSize} (hgate : Gate s) {i : ℕ}
    (hi : i < s.inodesPerGroup) (isDir : Bool) :
    Gave s bg (giveInGroup s crc32c isDir bg i) i isDir := by
  obtain ⟨lo, hi', hset⟩ := setBitmapCsum_eq s crc32c (bmapBitClr bg.bitmap i)
    { bg with bitmap := bmapBitClr bg.bitmap i }
  have hipg := hgate.inodes_per_group_le
  have hgive : giveInGroup s crc32c isDir bg i = { bg with
      bitmap := bmapBitClr bg.bitmap i, csumLo := lo, csumHi := hi',
      usedDirs := if isDir then stored s (sub32 bg.usedDirs 1) else bg.usedDirs,
      freeInodes := stored s (bg.freeInodes + 1) } := by
    unfold giveInGroup
    dsimp only
    rw [hset]
  rw [hgive]
  refine ⟨fun j hj => ?_, rfl, rfl⟩
  dsimp only [InodeGroup.used]
  rw [bit_bmapBitClr (by omega)]
  exact Bool.and_left_comm ..

/-- **Giving an inode back that was just taken restores the bitmap and the counters.** -/
theorem Took.gave {taken looked given : InodeGroup n} {i : ℕ} {isDir : Bool}
    (htook : Took s bg taken i isDir) (hsame : Unchanged s taken looked)
    (hgave : Gave s looked given i isDir) (hclear : bg.used i = false)
    (hfree : bg.freeInodes < counterRoom s) (hdirs : bg.usedDirs < counterRoom s)
    (hroom : isDir = true → bg.usedDirs + 1 < counterRoom s) :
    (∀ j < s.inodesPerGroup, given.used j = bg.used j) ∧ given.freeInodes = bg.freeInodes ∧
      given.usedDirs = bg.usedDirs := by
  have hcounter := counterRoom_le s
  refine ⟨fun j hj => ?_, ?_, ?_⟩
  · rw [hgave.used j hj, hsame.used j hj, htook.used j hj]
    by_cases hji : j = i
    · subst hji
      simp [hclear]
    · simp [hji]
  · rw [hgave.freeInodes, hsame.freeInodes, htook.freeInodes, stored_eq hfree]
  · rw [hgave.usedDirs, hsame.usedDirs, htook.usedDirs]
    cases isDir with
    | false => rfl
    | true =>
        have hlt := hroom rfl
        rw [if_pos rfl, if_pos rfl, stored_eq hlt, sub32_eq (by omega) (by omega),
          Nat.add_sub_cancel, stored_eq hdirs]

end Ext4.OnMedium

import OpenExt4.Ialloc.Sound

set_option autoImplicit false

/-! # When an inode allocation is sound

What `ext4_ialloc_alloc_inode` is for, on a consistent volume, and the condition it takes: no harm
in the descriptor behind the last group, which the loop looks at where the boot block is counted in,
and room to count the directories of the group. -/

namespace Ext4.OnMedium

open Bytes Ext4b

variable {s : Sblock} {crc32c : List UInt8 → ℕ} {dirs : ℕ → Bool} {g : ℕ}
  {fs fs' : InodeFs s.blockSize} {isDir : Bool}

/-! ## What is promised -/

/-- Every inode is in use or free as before, and the counters of inodes and directories are back. -/
structure Restored (s : Sblock) {n : ℕ} (fs fs' : InodeFs n) : Prop where
  inUse : ∀ ino, 1 ≤ ino → ino ≤ s.inodesCount → fs'.inUse s ino = fs.inUse s ino
  counters : ∀ g < s.probedGroups, (fs'.groups g).freeInodes = (fs.groups g).freeInodes ∧
    (fs'.groups g).usedDirs = (fs.groups g).usedDirs
  freeInodes : fs'.freeInodes = fs.freeInodes

/-- An inode of the volume that was free and is not reserved is in use now, and no other; the volume
    is consistent with it, and a table whose unused tail was exact has an exact one; freeing the
    inode restores what was there. -/
structure Allocated (s : Sblock) (crc32c : List UInt8 → ℕ) (dirs : ℕ → Bool) {n : ℕ} (isDir : Bool)
    (fs : InodeFs n) (ino : ℕ) (fs' : InodeFs n) : Prop where
  pos : 1 ≤ ino
  le : ino ≤ s.inodesCount
  free : fs.inUse s ino = false
  notReserved : firstInode s ≤ ino
  bits : ∀ k, 1 ≤ k → k ≤ s.inodesCount → fs'.inUse s k = (fs.inUse s k || decide (k = ino))
  consistent : fs'.Consistent s crc32c (Function.update dirs ino isDir)
  exact : ∀ g < s.probedGroups, UnusedExact s (fs.groups g) → UnusedExact s (fs'.groups g)
  behind : ∀ g, s.probedGroups ≤ g → fs'.groups g = fs.groups g
  freed : ∃ fs'', ext4IallocFreeInode s crc32c isDir fs' ino = (.ok (), fs'') ∧ Restored s fs fs''

/-- An allocation gives an inode, or says that all are in use and changes nothing. -/
structure AllocSound (s : Sblock) (crc32c : List UInt8 → ℕ) (unaligned : Bool) (dirs : ℕ → Bool)
    (isDir : Bool) {n : ℕ} (fs : InodeFs n) : Prop where
  ok : ∀ ino fs', ext4IallocAllocInode s crc32c unaligned isDir fs = (.ok ino, fs') →
    Allocated s crc32c dirs isDir fs ino fs'
  error : ∀ e fs', ext4IallocAllocInode s crc32c unaligned isDir fs = (.error e, fs') →
    e = Errno.ENOSPC ∧ (∀ ino, 1 ≤ ino → ino ≤ s.inodesCount → fs.inUse s ino = true) ∧
      SameInodes s fs fs'

/-! ## The condition -/

/-- A look at the descriptor changes nothing and finds no fault, if there are no inodes to find. -/
def Harmless (s : Sblock) (crc32c : List UInt8 → ℕ) {n : ℕ} (bg : InodeGroup n) : Prop :=
  bg.descErr = none ∧ bg.blockUninit = false ∧ bg.inodeUninit = false ∧
    (bg.freeInodes = 0 ∨
      bg.bitmapErr = none ∧ ext4IallocVerifyBitmapCsum s crc32c bg.bitmap bg = true)

/-- The groups from the last one used on count no free inode. -/
def LaterFull (s : Sblock) {n : ℕ} (fs : InodeFs n) : Prop :=
  ∀ k, fs.lastInodeBgId ≤ k → k < s.probedGroups → (fs.groups k).freeInodes = 0

/-- If the loop comes to a descriptor behind the last group, there is no harm in it. -/
def PhantomPasses (s : Sblock) (crc32c : List UInt8 → ℕ) {n : ℕ} (fs : InodeFs n) : Prop :=
  Phantom s → LaterFull s fs → Harmless s crc32c (fs.groups s.probedGroups)

/-- The group is the first to count free inodes, from the last one used on. -/
def FirstFree (s : Sblock) {n : ℕ} (fs : InodeFs n) (g : ℕ) : Prop :=
  g < s.probedGroups ∧ (fs.groups g).freeInodes ≠ 0 ∧
    (fs.lastInodeBgId ≤ g ∧ (∀ k, fs.lastInodeBgId ≤ k → k < g → (fs.groups k).freeInodes = 0) ∨
      g < fs.lastInodeBgId ∧ LaterFull s fs ∧ ∀ k < g, (fs.groups k).freeInodes = 0)

/-- There is room in the descriptor to count one directory more. -/
def DirRoom (s : Sblock) (isDir : Bool) {n : ℕ} (fs : InodeFs n) : Prop :=
  isDir = true → ∀ g, FirstFree s fs g → (fs.groups g).usedDirs + 1 < counterRoom s

/-! ## Behind the last group -/

section Built

variable {n : ℕ} {bg bg' : InodeGroup n}

theorem blockUninit_of_buildBlockBitmap (h : buildBlockBitmap bg = (none, bg')) :
    bg'.blockUninit = false := by
  unfold buildBlockBitmap at h
  by_cases huninit : bg.blockUninit = true
  · rw [if_pos huninit] at h
    split at h
    · cases h
    · cases h
      rfl
  · rw [if_neg huninit] at h
    cases h
    exact Bool.eq_false_of_not_eq_true huninit

theorem flags_of_buildInodeTable (h : buildInodeTable bg = (none, bg')) :
    bg'.blockUninit = bg.blockUninit ∧ bg'.inodeUninit = bg.inodeUninit := by
  unfold buildInodeTable at h
  by_cases hzeroed : bg.itableZeroed = true
  · rw [if_pos hzeroed] at h
    cases h
    exact ⟨rfl, rfl⟩
  · rw [if_neg hzeroed] at h
    split at h
    · cases h
    · cases h
      exact ⟨rfl, rfl⟩

theorem flags_of_buildInodeBitmap (h : buildInodeBitmap s crc32c bg = (none, bg')) :
    bg'.blockUninit = bg.blockUninit ∧ bg'.inodeUninit = false := by
  unfold buildInodeBitmap at h
  by_cases huninit : bg.inodeUninit = true
  · rw [if_pos huninit] at h
    cases herr : bg.noreadErr with
    | some e =>
        rw [ext4FsInitInodeBitmap, herr] at h
        cases h
    | none =>
        obtain ⟨lo, hi, hinit, -⟩ := ext4FsInitInodeBitmap_eq (s := s) herr
        rw [hinit] at h
        exact flags_of_buildInodeTable h
  · rw [if_neg huninit] at h
    cases h
    exact ⟨rfl, Bool.eq_false_of_not_eq_true huninit⟩

/-- A look that goes well leaves no bitmap to be built. -/
theorem getBlockGroupRef_built (h : ext4FsGetBlockGroupRef s crc32c bg = (none, bg')) :
    bg.descErr = none ∧ bg'.blockUninit = false ∧ bg'.inodeUninit = false := by
  unfold ext4FsGetBlockGroupRef at h
  split at h
  · cases h
  · next hdesc =>
      split at h
      · cases h
      · next mid hmid =>
          obtain ⟨hkeeps, hinit⟩ := flags_of_buildInodeBitmap h
          exact ⟨hdesc, hkeeps.trans (blockUninit_of_buildBlockBitmap hmid), hinit⟩

/-- Where nothing is to be built, a look only reads the descriptor. -/
theorem getBlockGroupRef_eq_self (hdesc : bg.descErr = none) (hblock : bg.blockUninit = false)
    (hinode : bg.inodeUninit = false) : ext4FsGetBlockGroupRef s crc32c bg = (none, bg) := by
  simp [ext4FsGetBlockGroupRef, buildBlockBitmap, buildInodeBitmap, hdesc, hblock, hinode]

theorem errno_ne_ENOSPC (e : ReadErr) : e.errno ≠ Errno.ENOSPC := by
  cases e <;> decide

end Built

/-- **No inode is found behind the last group.** The loop goes on there unchanged if the descriptor
    is no harm, and otherwise fails or changes it. -/
theorem tryInodeGroup_behind (unaligned isDir : Bool) {n : ℕ} (fs : InodeFs n)
    (hnone : ext4InodesInGroupCnt s g = 0) :
    (Harmless s crc32c (fs.groups g) →
      tryInodeGroup s crc32c unaligned isDir fs g = (none, fs)) ∧
    (¬ Harmless s crc32c (fs.groups g) →
      ∃ bg, (∃ e, e ≠ Errno.ENOSPC ∧
          tryInodeGroup s crc32c unaligned isDir fs g = (some (.error e), fs.putGroup g bg)) ∨
        bg ≠ fs.groups g ∧
          tryInodeGroup s crc32c unaligned isDir fs g = (none, fs.putGroup g bg)) := by
  have hput : fs.putGroup g (fs.groups g) = fs := by simp [InodeFs.putGroup]
  have hfind (bmap : Buf n) : bmapBitFindClr unaligned bmap 0 (ext4InodesInGroupCnt s g) = none := by
    rw [hnone]
    exact if_pos le_rfl
  constructor
  · rintro ⟨hdesc, hblock, hinode, hread⟩
    unfold tryInodeGroup
    rw [getBlockGroupRef_eq_self hdesc hblock hinode]
    dsimp only
    rw [hput]
    rcases hread with hfree | ⟨hbitmap, hverifies⟩
    · exact if_pos hfree
    · rw [hbitmap]
      dsimp only
      rw [hverifies, hfind]
      simp
  · intro hharm
    unfold tryInodeGroup
    rcases hget : ext4FsGetBlockGroupRef s crc32c (fs.groups g) with ⟨err | err, bg⟩
    · obtain ⟨hdesc, hblock, hinode⟩ := getBlockGroupRef_built hget
      dsimp only
      have hsame (hread : bg.freeInodes = 0 ∨
          bg.bitmapErr = none ∧ ext4IallocVerifyBitmapCsum s crc32c bg.bitmap bg = true) :
          bg ≠ fs.groups g := by
        rintro rfl
        exact hharm ⟨hdesc, hblock, hinode, hread⟩
      by_cases hfree : bg.freeInodes = 0
      · exact ⟨bg, .inr ⟨hsame (.inl hfree), if_pos hfree⟩⟩
      rw [if_neg hfree]
      cases hbitmap : bg.bitmapErr with
      | some err => exact ⟨bg, .inl ⟨err.errno, errno_ne_ENOSPC err, rfl⟩⟩
      | none =>
          dsimp only
          cases hverifies : ext4IallocVerifyBitmapCsum s crc32c bg.bitmap bg with
          | false => exact ⟨bg, .inl ⟨_, (by decide : Errno.EIO ≠ .ENOSPC), rfl⟩⟩
          | true =>
              refine ⟨bg, .inr ⟨hsame (.inr ⟨hbitmap, hverifies⟩), ?_⟩⟩
              rw [hfind]
              simp
    · exact ⟨bg, .inl ⟨err.errno, errno_ne_ENOSPC err, rfl⟩⟩

/-! ## The whole search -/

/-- The loop over two stretches of groups. -/
theorem tryInodeGroups_add (unaligned isDir : Bool) {n : ℕ} (a b bgid : ℕ) (fs : InodeFs n) :
    tryInodeGroups s crc32c unaligned isDir (a + b) bgid fs
      = match tryInodeGroups s crc32c unaligned isDir a bgid fs with
        | (some r, fs) => (some r, fs)
        | (none, fs) => tryInodeGroups s crc32c unaligned isDir b (bgid + a) fs := by
  induction a generalizing bgid fs with
  | zero => rw [Nat.zero_add, Nat.add_zero, tryInodeGroups]
  | succ a ih =>
      rw [Nat.succ_add, tryInodeGroups, tryInodeGroups]
      rcases tryInodeGroup s crc32c unaligned isDir fs bgid with ⟨r | r, fs'⟩
      · dsimp only
        rw [ih, Nat.succ_add_eq_add_succ]
      · rfl

/-- The descriptor behind the last group is no group of the volume. -/
theorem putGroup_behind (hgate : Gate s) (h : fs.Consistent s crc32c dirs)
    (hg : s.probedGroups ≤ g) (bg : InodeGroup s.blockSize) :
    (fs.putGroup g bg).Consistent s crc32c dirs ∧
      ∀ k < s.probedGroups, (fs.putGroup g bg).groups k = fs.groups k := by
  have hrest (k : ℕ) (hk : k < s.probedGroups) : (fs.putGroup g bg).groups k = fs.groups k :=
    Function.update_of_ne (by omega) ..
  refine ⟨⟨?_, ?_, ?_, h.hint⟩, hrest⟩
  · intro k hk
    rw [hrest k hk]
    exact h.group k hk
  · intro ino hpos hlt hle
    rw [InodeFs.inUse, hrest _ (group_of_mem hgate hpos hle)]
    exact h.reserved ino hpos hlt hle
  · exact h.total.trans (Finset.sum_congr rfl fun k hk => by
      rw [hrest k (Finset.mem_range.mp hk)])

/-- What the loop finds from the last group used on. -/
theorem laterGroups_cases (unaligned isDir : Bool) (hgate : Gate s) (hcounts : CountsAgree s)
    (h : fs.Consistent s crc32c dirs) (hpasses : PhantomPasses s crc32c fs) :
    (LaterFull s fs ∧ ∃ fs', tryInodeGroups s crc32c unaligned isDir
        (ext4BlockGroupCnt s - fs.lastInodeBgId) fs.lastInodeBgId fs = (none, fs') ∧
      SameInodes s fs fs' ∧ fs'.Consistent s crc32c dirs) ∨
    ∃ g, fs.lastInodeBgId ≤ g ∧ FirstFree s fs g ∧
      ∃ i fs', tryInodeGroups s crc32c unaligned isDir
          (ext4BlockGroupCnt s - fs.lastInodeBgId) fs.lastInodeBgId fs
          = (some (.ok (inodeAt s g i)), fs') ∧ Takes s crc32c dirs isDir fs g i fs' := by
  have hhint := h.hint
  have hsplit : ext4BlockGroupCnt s - fs.lastInodeBgId
      = s.probedGroups - fs.lastInodeBgId + if Phantom s then 1 else 0 := by
    rw [blockGroupCnt_eq hgate hcounts, countedGroups]
    omega
  have hend : fs.lastInodeBgId + (s.probedGroups - fs.lastInodeBgId) = s.probedGroups := by omega
  rw [hsplit, tryInodeGroups_add, hend]
  rcases tryInodeGroups_cases unaligned isDir hgate hcounts h
      (s.probedGroups - fs.lastInodeBgId) fs.lastInodeBgId (by omega) with
    ⟨hfull, fs', htry, hsame, hcons⟩ | ⟨g, hlo, hhi, hfree, hfull, i, fs', htry, htakes⟩
  · rw [hend] at hfull
    refine .inl ⟨hfull, fs', ?_, hsame, hcons⟩
    rw [htry]
    dsimp only
    by_cases hphantom : Phantom s
    · have hpass := (@tryInodeGroup_behind s crc32c _ unaligned isDir _ fs'
        ((inodesInGroup_eq hgate hcounts).2 hphantom)).1
      rw [hsame.behind _ le_rfl] at hpass
      rw [if_pos hphantom, tryInodeGroups, hpass (hpasses hphantom hfull)]
      rfl
    · rw [if_neg hphantom, tryInodeGroups]
  · refine .inr ⟨g, hlo, ⟨by omega, hfree, .inl ⟨hlo, hfull⟩⟩, i, fs', ?_, htakes⟩
    rw [htry]

/-- **What an allocation does** where the descriptor behind the last group is no harm. -/
theorem allocInode_cases (unaligned isDir : Bool) (hgate : Gate s) (hcounts : CountsAgree s)
    (h : fs.Consistent s crc32c dirs) (hpasses : PhantomPasses s crc32c fs) :
    (∃ g, FirstFree s fs g ∧ ∃ i fs', ext4IallocAllocInode s crc32c unaligned isDir fs
        = (.ok (inodeAt s g i), fs') ∧ Takes s crc32c dirs isDir fs g i fs') ∨
    (∀ k < s.probedGroups, (fs.groups k).freeInodes = 0) ∧
      ∃ fs', ext4IallocAllocInode s crc32c unaligned isDir fs = (.error Errno.ENOSPC, fs') ∧
        SameInodes s fs fs' := by
  have hhint := h.hint
  have hcnt := blockGroupCnt_eq hgate hcounts
  unfold ext4IallocAllocInode
  dsimp only
  rw [if_neg (by rw [hcnt, countedGroups]; omega)]
  rcases laterGroups_cases unaligned isDir hgate hcounts h hpasses with
    ⟨hlater, fs₁, htry, hsame, hcons⟩ | ⟨g, -, hfirst, i, fs', htry, htakes⟩
  · rw [htry]
    dsimp only
    have hfree (k : ℕ) (hk : k < s.probedGroups) := (hsame.group k hk).freeInodes
    rcases tryInodeGroups_cases unaligned isDir hgate hcounts hcons fs.lastInodeBgId 0
        (by omega) with
      ⟨hfull, fs', htry', hsame', -⟩ | ⟨g, -, hhi, hfree', hfull, i, fs', htry', htakes⟩
    · refine .inr ⟨fun k hk => ?_, fs', by rw [htry'], hsame.trans hsame'⟩
      by_cases hlo : fs.lastInodeBgId ≤ k
      · exact hlater k hlo hk
      · rw [← hfree k hk]
        exact hfull k (Nat.zero_le _) (by omega)
    · have hg : g < s.probedGroups := by omega
      refine .inl ⟨g, ⟨hg, ?_, .inr ⟨by omega, hlater, fun k hk => ?_⟩⟩, i, fs', by rw [htry'],
        hsame.takes htakes hg⟩
      · rw [← hfree g hg]
        exact hfree'
      · rw [← hfree k (by omega)]
        exact hfull k (Nat.zero_le _) hk
  · exact .inl ⟨g, hfirst, i, fs', by rw [htry], htakes⟩

/-- Where it is a harm, the allocation fails or changes it. -/
theorem allocInode_phantom (unaligned isDir : Bool) (hgate : Gate s) (hcounts : CountsAgree s)
    (h : fs.Consistent s crc32c dirs) (hharm : ¬ PhantomPasses s crc32c fs) :
    (∃ e fs', e ≠ Errno.ENOSPC ∧
      ext4IallocAllocInode s crc32c unaligned isDir fs = (.error e, fs')) ∨
    ∃ r fs', ext4IallocAllocInode s crc32c unaligned isDir fs = (r, fs') ∧
      fs'.groups s.probedGroups ≠ fs.groups s.probedGroups := by
  unfold PhantomPasses at hharm
  push Not at hharm
  obtain ⟨hphantom, hlater, hharm⟩ := hharm
  have hhint := h.hint
  have hcnt : ext4BlockGroupCnt s = s.probedGroups + 1 := by
    rw [blockGroupCnt_eq hgate hcounts, countedGroups, if_pos hphantom]
  have hsplit : ext4BlockGroupCnt s - fs.lastInodeBgId = s.probedGroups - fs.lastInodeBgId + 1 := by
    omega
  have hend : fs.lastInodeBgId + (s.probedGroups - fs.lastInodeBgId) = s.probedGroups := by omega
  unfold ext4IallocAllocInode
  dsimp only
  rw [if_neg (by omega), hsplit, tryInodeGroups_add, hend]
  rcases tryInodeGroups_cases unaligned isDir hgate hcounts h
      (s.probedGroups - fs.lastInodeBgId) fs.lastInodeBgId (by omega) with
    ⟨-, fs₁, htry, hsame, hcons⟩ | ⟨g, hlo, hhi, hfree, -⟩
  · have hbehind := (@tryInodeGroup_behind s crc32c _ unaligned isDir _ fs₁
      ((inodesInGroup_eq hgate hcounts).2 hphantom)).2
    rw [hsame.behind _ le_rfl] at hbehind
    rw [htry]
    dsimp only
    rw [tryInodeGroups]
    obtain ⟨bg, ⟨e, he, hfail⟩ | ⟨hbg, hpass⟩⟩ := hbehind hharm
    · rw [hfail]
      exact .inl ⟨e, _, he, rfl⟩
    · rw [hpass]
      dsimp only
      rw [tryInodeGroups]
      dsimp only
      obtain ⟨hcons₂, hrest⟩ := putGroup_behind hgate hcons (le_refl s.probedGroups) bg
      have hself : (fs₁.putGroup s.probedGroups bg).groups s.probedGroups = bg :=
        Function.update_self ..
      rcases tryInodeGroups_cases unaligned isDir hgate hcounts hcons₂ fs.lastInodeBgId 0
          (by omega) with
        ⟨-, fs', htry', hsame', -⟩ | ⟨g, -, -, -, -, i, fs', htry', htakes⟩
      · refine .inr ⟨.error Errno.ENOSPC, fs', by rw [htry'], ?_⟩
        rw [hsame'.behind _ le_rfl, hself]
        exact hbg
      · refine .inr ⟨.ok (inodeAt s g i), fs', by rw [htry'], ?_⟩
        rw [htakes.behind _ le_rfl, hself]
        exact hbg
  · exact absurd (hlater g hlo (by omega)) hfree

/-! ## What an allocation gives -/

theorem inodeAt_inj {g k i j : ℕ} (hi : i < s.inodesPerGroup) (hj : j < s.inodesPerGroup)
    (h : inodeAt s g i = inodeAt s k j) : g = k ∧ i = j := by
  have hfirst := inodeAt_sub_one (g := g) hi
  rw [h, (inodeAt_sub_one hj).1, (inodeAt_sub_one hj).2] at hfirst
  exact ⟨hfirst.1.symm, hfirst.2.symm⟩

/-- The free inodes of a consistent volume. -/
theorem InodeFs.Consistent.freeInodes_le (h : fs.Consistent s crc32c dirs) (hgate : Gate s) :
    fs.freeInodes ≤ s.inodesCount := by
  have hle : ∀ g ∈ Finset.range s.probedGroups, (fs.groups g).freeInodes ≤ s.inodesPerGroup := by
    intro g hg
    rw [(h.group g (Finset.mem_range.mp hg)).free]
    exact Nat.count_le _
  have hsum := Finset.sum_le_card_nsmul _ _ _ hle
  rw [Finset.card_range, nsmul_eq_mul, Nat.cast_id, Nat.mul_comm, hgate.inodes_count] at hsum
  rw [h.total]
  exact hsum

theorem sum_took {f f' : ℕ → ℕ} {m : ℕ} (hg : g < m) (htook : f' g + 1 = f g)
    (hrest : ∀ k < m, k ≠ g → f' k = f k) :
    ∑ k ∈ Finset.range m, f' k + 1 = ∑ k ∈ Finset.range m, f k := by
  have hmem : g ∈ Finset.range m := Finset.mem_range.mpr hg
  have hsame : ∑ k ∈ (Finset.range m).erase g, f' k = ∑ k ∈ (Finset.range m).erase g, f k :=
    Finset.sum_congr rfl fun k hk => by
      rw [Finset.mem_erase, Finset.mem_range] at hk
      exact hrest k hk.2 hk.1
  rw [← Finset.add_sum_erase _ _ hmem, ← Finset.add_sum_erase _ f hmem, hsame]
  omega

/-- A volume an inode of which is given back. -/
def givenInode (s : Sblock) (crc32c : List UInt8 → ℕ) (isDir : Bool) {n : ℕ} (fs : InodeFs n)
    (bg : InodeGroup n) (g i : ℕ) : InodeFs n :=
  { fs with
    groups := Function.update fs.groups g (giveInGroup s crc32c isDir bg i)
    freeInodes := (fs.freeInodes + 1) % 2 ^ 32 }

/-- An inode of a consistent volume can be given back. -/
theorem freeInode_consistent (hgate : Gate s) (h : fs.Consistent s crc32c dirs)
    (hg : g < s.probedGroups) {i : ℕ} (hi : i < s.inodesPerGroup) (isDir : Bool) :
    ∃ bg, Unchanged s (fs.groups g) bg ∧
      ext4IallocFreeInode s crc32c isDir fs (inodeAt s g i)
        = (.ok (), givenInode s crc32c isDir fs bg g i) := by
  have hle := inodeAt_le hgate hg hi
  have hcount : s.inodesCount < 2 ^ 32 := rd32_lt _ _
  have hpos : 1 ≤ inodeAt s g i := Nat.succ_le_succ (Nat.zero_le _)
  obtain ⟨hgroup, hbit⟩ := inodeAt_sub_one (g := g) hi
  obtain ⟨bg, hget, hinit, hsame, hbg⟩ := getBlockGroupRef_consistent hgate (h.group g hg)
  refine ⟨bg, hsame, ?_⟩
  unfold ext4IallocFreeInode
  rw [ext4IallocGetBgidOfInode, ext4IallocInodeToBgidx, sub32_eq hpos (by omega), hgroup, hbit]
  dsimp only
  rw [hget]
  dsimp only
  rw [hbg.readable.bitmapErr]
  dsimp only
  rw [hbg.verifies hinit, Bool.not_true, if_neg Bool.false_ne_true]
  rfl

namespace Takes

variable {i : ℕ}

/-- Exactly the inode that is given out is in use now. -/
theorem inUse (h : Takes s crc32c dirs isDir fs g i fs') (hgate : Gate s) {ino : ℕ}
    (hpos : 1 ≤ ino) (hle : ino ≤ s.inodesCount) :
    fs'.inUse s ino = (fs.inUse s ino || decide (ino = inodeAt s g i)) := by
  have hipg := hgate.inodes_per_group_ge
  have hk := group_of_mem hgate hpos hle
  have hj : (ino - 1) % s.inodesPerGroup < s.inodesPerGroup := Nat.mod_lt _ (by omega)
  rw [← inodeAt_of_mem (s := s) hpos, inUse_inodeAt fs' hj, inUse_inodeAt fs hj]
  generalize (ino - 1) / s.inodesPerGroup = k at hk ⊢
  generalize (ino - 1) % s.inodesPerGroup = j at hj ⊢
  by_cases hkg : k = g
  · subst hkg
    rw [h.group.used j hj]
    congr 1
    exact decide_eq_decide.mpr ⟨fun hji => by rw [hji], fun heq => (inodeAt_inj hj h.bit_lt heq).2⟩
  · have hne : inodeAt s k j ≠ inodeAt s g i := fun heq => hkg (inodeAt_inj hj h.bit_lt heq).1
    rw [(h.other k hk hkg).1.used j hj, decide_eq_false hne, Bool.or_false]

/-- The volume is consistent with the inode that was given out. -/
theorem consistent (h : Takes s crc32c dirs isDir fs g i fs') (hgate : Gate s)
    (hcons : fs.Consistent s crc32c dirs) (hg : g < s.probedGroups)
    (hroom : isDir = true → (fs.groups g).usedDirs + 1 < counterRoom s) :
    fs'.Consistent s crc32c (Function.update dirs (inodeAt s g i) isDir) := by
  have hfree : ∀ k < s.probedGroups, k ≠ g → (fs'.groups k).freeInodes = (fs.groups k).freeInodes :=
    fun k hk hkg => (h.other k hk hkg).1.freeInodes
  have hsum := sum_took hg h.group.freeInodes hfree
  have hlt := hcons.freeInodes_le hgate
  have hcount : s.inodesCount < 2 ^ 32 := rd32_lt _ _
  refine ⟨fun k hk => ?_, fun ino hpos hlt hle => ?_, ?_, ?_⟩
  · by_cases hkg : k = g
    · subst hkg
      exact h.group.consistent (hcons.group k hk) h.bit_lt h.clear hroom h.readable fun _ =>
        h.verifies.2
    · refine (h.other k hk hkg).2.congr fun j hj _ => Function.update_of_ne ?_ ..
      exact fun heq => hkg (inodeAt_inj hj h.bit_lt heq).1
  · rw [h.inUse hgate hpos hle, hcons.reserved ino hpos hlt hle, Bool.true_or]
  · have htotal := hcons.total
    rw [h.freeInodes, sub32_eq (by omega) (by omega)]
    omega
  · rw [h.hint]
    exact hg

/-- Freeing the inode that was given out restores the volume. -/
theorem freed (h : Takes s crc32c dirs isDir fs g i fs') (hgate : Gate s)
    (hcons : fs.Consistent s crc32c dirs) (hg : g < s.probedGroups)
    (hroom : isDir = true → (fs.groups g).usedDirs + 1 < counterRoom s) :
    ∃ fs'', ext4IallocFreeInode s crc32c isDir fs' (inodeAt s g i) = (.ok (), fs'') ∧
      Restored s fs fs'' := by
  obtain ⟨bg, hsame, hfree⟩ := freeInode_consistent hgate (h.consistent hgate hcons hg hroom) hg
    h.bit_lt isDir
  obtain ⟨hused, hinodes, hdirs⟩ :=
    h.group.gave hsame (@gave_giveInGroup s crc32c _ hgate _ h.bit_lt isDir) h.clear
      (hcons.group g hg).free_room (hcons.group g hg).dirs_room hroom
  have hself : (givenInode s crc32c isDir fs' bg g i).groups g = giveInGroup s crc32c isDir bg i :=
    Function.update_self ..
  have hother (k : ℕ) (hkg : k ≠ g) :
      (givenInode s crc32c isDir fs' bg g i).groups k = fs'.groups k := Function.update_of_ne hkg ..
  refine ⟨_, hfree, fun ino hpos hle => ?_, fun k hk => ?_, ?_⟩
  · have hk := group_of_mem hgate hpos hle
    have hipg := hgate.inodes_per_group_ge
    have hj : (ino - 1) % s.inodesPerGroup < s.inodesPerGroup := Nat.mod_lt _ (by omega)
    unfold InodeFs.inUse
    generalize (ino - 1) / s.inodesPerGroup = k at hk ⊢
    by_cases hkg : k = g
    · subst hkg
      rw [hself]
      exact hused _ hj
    · rw [hother k hkg]
      exact (h.other k hk hkg).1.used _ hj
  · by_cases hkg : k = g
    · subst hkg
      rw [hself]
      exact ⟨hinodes, hdirs⟩
    · rw [hother k hkg]
      exact ⟨(h.other k hk hkg).1.freeInodes, (h.other k hk hkg).1.usedDirs⟩
  · have htotal := hcons.total
    have hle := hcons.freeInodes_le hgate
    have hcount : s.inodesCount < 2 ^ 32 := rd32_lt _ _
    have hsum := sum_took hg h.group.freeInodes fun k hk hkg => (h.other k hk hkg).1.freeInodes
    have hback : (givenInode s crc32c isDir fs' bg g i).freeInodes
        = (fs'.freeInodes + 1) % 2 ^ 32 := rfl
    rw [hback, h.freeInodes, sub32_eq (by omega) (by omega)]
    omega

/-- **What is promised of an allocation**, where there is room to count the directory. -/
theorem allocated (h : Takes s crc32c dirs isDir fs g i fs') (hgate : Gate s)
    (hcons : fs.Consistent s crc32c dirs) (hg : g < s.probedGroups)
    (hroom : isDir = true → (fs.groups g).usedDirs + 1 < counterRoom s) :
    Allocated s crc32c dirs isDir fs (inodeAt s g i) fs' := by
  have hpos : 1 ≤ inodeAt s g i := Nat.succ_le_succ (Nat.zero_le _)
  have hle := inodeAt_le hgate hg h.bit_lt
  have hfree : fs.inUse s (inodeAt s g i) = false := by rw [inUse_inodeAt fs h.bit_lt, h.clear]
  constructor
  · exact hpos
  · exact hle
  · exact hfree
  · by_contra hlt
    rw [hcons.reserved _ hpos (not_le.mp hlt) hle] at hfree
    exact nomatch hfree
  · exact fun k hk hkle => h.inUse hgate hk hkle
  · exact h.consistent hgate hcons hg hroom
  · intro k hk hexact
    by_cases hkg : k = g
    · subst hkg
      exact h.group.unusedExact h.bit_lt hexact
    · exact (h.other k hk hkg).1.unusedExact hexact
  · exact h.behind
  · exact h.freed hgate hcons hg hroom

end Takes

/-! ## When it is sound -/

/-- Where no group counts a free inode, all inodes are in use. -/
theorem inUse_of_full (hgate : Gate s) (hcons : fs.Consistent s crc32c dirs)
    (hfull : ∀ k < s.probedGroups, (fs.groups k).freeInodes = 0) {ino : ℕ} (hpos : 1 ≤ ino)
    (hle : ino ≤ s.inodesCount) : fs.inUse s ino = true := by
  have hk := group_of_mem hgate hpos hle
  have hipg := hgate.inodes_per_group_ge
  have hj : (ino - 1) % s.inodesPerGroup < s.inodesPerGroup := Nat.mod_lt _ (by omega)
  have hnone := hfull _ hk
  rw [(hcons.group _ hk).free, Nat.count_eq_card_filter_range, Finset.card_eq_zero,
    Finset.filter_eq_empty_iff] at hnone
  exact Bool.eq_true_of_not_eq_false (hnone (Finset.mem_range.mpr hj))

/-- The search takes the first group that counts free inodes, and there is only one. -/
theorem FirstFree.unique {k : ℕ} (h : FirstFree s fs g) (h' : FirstFree s fs k) : g = k := by
  obtain ⟨hg, hfree, hfirst⟩ := h
  obtain ⟨hk, hfree', hfirst'⟩ := h'
  by_contra hne
  rcases hfirst with ⟨hlo, hbefore⟩ | ⟨hlo, hlater, hbefore⟩ <;>
    rcases hfirst' with ⟨hlo', hbefore'⟩ | ⟨hlo', hlater', hbefore'⟩
  · rcases Nat.lt_or_gt_of_ne hne with hlt | hgt
    · exact hfree (hbefore' g hlo hlt)
    · exact hfree' (hbefore k hlo' hgt)
  · exact hfree (hlater' g hlo hg)
  · exact hfree' (hlater k hlo' hk)
  · rcases Nat.lt_or_gt_of_ne hne with hlt | hgt
    · exact hfree (hbefore' g hlt)
    · exact hfree' (hbefore k hgt)

/-- A group that counts the directory it lost has room for it. -/
theorem Takes.room_of_consistent {i : ℕ} (h : Takes s crc32c dirs true fs g i fs')
    (hcons : (fs.groups g).Consistent s crc32c dirs g)
    (hcons' : (fs'.groups g).Consistent s crc32c (Function.update dirs (inodeAt s g i) true) g) :
    (fs.groups g).usedDirs + 1 < counterRoom s := by
  have hlt := hcons.dirs_room
  by_contra hfull
  have hroom : (fs.groups g).usedDirs + 1 = counterRoom s := by omega
  have hstored : stored s (counterRoom s) = 0 := by
    unfold stored counterRoom
    split <;> rfl
  have hzero := h.group.usedDirs
  rw [if_pos rfl, hroom, hstored, hcons'.usedDirs, Nat.count_eq_card_filter_range,
    Finset.card_eq_zero, Finset.filter_eq_empty_iff] at hzero
  refine hzero (Finset.mem_range.mpr h.bit_lt) ⟨?_, Function.update_self ..⟩
  rw [h.group.used i h.bit_lt, decide_eq_true rfl, Bool.or_true]

/-- **An inode allocation is sound** on a consistent volume if and only if a descriptor behind the
    last group that it comes to is no harm, and a directory it counts has room to be counted. -/
theorem allocSound_iff {dev : ProbeDevice} (haccepted : Accepted dev s) (hcounts : CountsAgree s)
    (unaligned isDir : Bool) (hcons : fs.Consistent s crc32c dirs) :
    AllocSound s crc32c unaligned dirs isDir fs
      ↔ PhantomPasses s crc32c fs ∧ DirRoom s isDir fs := by
  have hgate := haccepted.gate
  constructor
  · intro hsound
    have hpasses : PhantomPasses s crc32c fs := by
      by_contra hharm
      rcases allocInode_phantom unaligned isDir hgate hcounts hcons hharm with
        ⟨e, fs', he, halloc⟩ | ⟨e | ino, fs', halloc, hchanged⟩
      · exact he (hsound.error e fs' halloc).1
      · exact hchanged ((hsound.error e fs' halloc).2.2.behind _ le_rfl)
      · exact hchanged ((hsound.ok ino fs' halloc).behind _ le_rfl)
    refine ⟨hpasses, fun hdir g hfirst => ?_⟩
    subst hdir
    rcases allocInode_cases unaligned true hgate hcounts hcons hpasses with
      ⟨k, hfirst', i, fs', halloc, htakes⟩ | ⟨hfull, -⟩
    · obtain rfl := hfirst.unique hfirst'
      exact htakes.room_of_consistent (hcons.group g hfirst.1)
        ((hsound.ok _ fs' halloc).consistent.group g hfirst.1)
    · exact absurd (hfull g hfirst.1) hfirst.2.1
  · rintro ⟨hpasses, hroom⟩
    rcases allocInode_cases unaligned isDir hgate hcounts hcons hpasses with
      ⟨g, hfirst, i, fs', halloc, htakes⟩ | ⟨hfull, fs', halloc, hsame⟩
    · have hgiven := htakes.allocated hgate hcons hfirst.1 fun hdir => hroom hdir g hfirst
      refine ⟨fun ino fs₁ heq => ?_, fun e fs₁ heq => ?_⟩
      · obtain ⟨hino, rfl⟩ := Prod.mk.inj (halloc.symm.trans heq)
        obtain rfl := Except.ok.inj hino
        exact hgiven
      · exact nomatch (Prod.mk.inj (halloc.symm.trans heq)).1
    · refine ⟨fun ino fs₁ heq => ?_, fun e fs₁ heq => ?_⟩
      · exact nomatch (Prod.mk.inj (halloc.symm.trans heq)).1
      · obtain ⟨he, rfl⟩ := Prod.mk.inj (halloc.symm.trans heq)
        obtain rfl := Except.error.inj he
        exact ⟨rfl, fun ino hpos hle => inUse_of_full hgate hcons hfull hpos hle, hsame⟩

/-! A revision 0 volume of 32 full groups of 1 KiB blocks, where only inode 11 is free. The 32
descriptors fill their block, so that the one behind them is read from the first block bitmap. -/

def fullGroupsSb : Sblock := sbOf
  [(0x001, 2), (0x004, 1), (0x006, 4), (0x014, 1), (0x021, 0x20), (0x028, 16), (0x038, 0x53),
    (0x039, 0xEF), (0x058, 128)]

def fullGroup : InodeGroup 1024 where
  blockUninit := false
  inodeUninit := false
  itableZeroed := false
  bitmap := fun _ => 0xff
  csumLo := 0
  csumHi := 0
  freeInodes := 0
  usedDirs := 0
  itableUnused := 0
  descErr := none
  blockBitmapErr := none
  noreadErr := none
  tableErr := none
  bitmapErr := none

/-- The group of the root directory, with inode 11 free. -/
def rootGroup : InodeGroup 1024 :=
  { fullGroup with
    bitmap := fun i => if i.val = 1 then 0xfb else 0xff
    freeInodes := 1
    usedDirs := 1 }

/-- What a bitmap of ones says as a descriptor: its block bitmap would lie outside the volume. -/
def onesGroup : InodeGroup 1024 :=
  { fullGroup with
    blockUninit := true
    inodeUninit := true
    itableZeroed := true
    csumLo := 0xffff
    freeInodes := 0xffff
    usedDirs := 0xffff
    itableUnused := 0xffff
    blockBitmapErr := some ReadErr.ENXIO }

def fullGroupsFs (last : ℕ) : InodeFs 1024 where
  groups g := if g = 0 then rootGroup else if g < 32 then fullGroup else onesGroup
  freeInodes := 1
  lastInodeBgId := last

theorem fullGroups_accepted : Accepted ⟨262145, 1024, some fullGroupsSb⟩ fullGroupsSb :=
  ⟨rfl, _, rfl, by decide⟩

theorem rootGroup_consistent :
    rootGroup.Consistent fullGroupsSb (fun _ => 0) (fun ino => ino == 2) 0 where
  readable := ⟨rfl, rfl, rfl, rfl, rfl⟩
  verifies _ := by decide
  free := by decide
  usedDirs := by decide
  unused_le := by decide
  unused := by decide
  free_room := by decide
  dirs_room := by decide
  unused_room := by decide

theorem fullGroup_consistent {g : ℕ} (hg : g ≠ 0) :
    fullGroup.Consistent fullGroupsSb (fun _ => 0) (fun ino => ino == 2) g where
  readable := ⟨rfl, rfl, rfl, rfl, rfl⟩
  verifies _ := by decide
  free := by decide
  usedDirs := by
    have hipg : fullGroupsSb.inodesPerGroup = 16 := by decide
    have hnone : Nat.count (fun i => fullGroup.used i = true ∧
        (inodeAt fullGroupsSb g i == 2) = true) fullGroupsSb.inodesPerGroup
        = Nat.count (fun _ => False) fullGroupsSb.inodesPerGroup := by
      refine count_congr fun i hi => iff_of_false (fun h => ?_) id
      have hino : inodeAt fullGroupsSb g i = 2 := beq_iff_eq.mp h.2
      rw [inodeAt, hipg] at hino
      omega
    rw [hnone, Nat.count_false]
    rfl
  unused_le := by decide
  unused := by decide
  free_room := by decide
  dirs_room := by decide
  unused_room := by decide

theorem fullGroups_consistent {last : ℕ} (hlast : last < 32) :
    (fullGroupsFs last).Consistent fullGroupsSb (fun _ => 0) (fun ino => ino == 2) := by
  have hgroups : fullGroupsSb.probedGroups = 32 := by decide
  constructor
  · intro g hg
    rw [hgroups] at hg
    by_cases hroot : g = 0
    · subst hroot
      exact rootGroup_consistent
    · have hfull : (fullGroupsFs last).groups g = fullGroup := by simp [fullGroupsFs, hroot, hg]
      rw [hfull]
      exact fullGroup_consistent hroot
  · have hfirst : firstInode fullGroupsSb = 11 := by decide
    have hused : ∀ ino < 11, 1 ≤ ino → (fullGroupsFs 0).inUse fullGroupsSb ino = true := by decide
    intro ino hpos hlt hle
    rw [hfirst] at hlt
    exact hused ino hlt hpos
  · have hfree (g : ℕ) (hg : g < 32) : ((fullGroupsFs last).groups g).freeInodes
        = if g = 0 then 1 else 0 := by
      by_cases hroot : g = 0 <;> simp [fullGroupsFs, hroot, hg, rootGroup, fullGroup]
    rw [hgroups, Finset.sum_congr rfl fun g hg => hfree g (Finset.mem_range.mp hg),
      Finset.sum_ite_eq', if_pos (by decide)]
    rfl
  · rw [hgroups]
    exact hlast

/-- From group 31 on, the search comes to the descriptor behind the last group before it comes to
    the free inode of the first. -/
theorem allocSound_phantom :
    Accepted ⟨262145, 1024, some fullGroupsSb⟩ fullGroupsSb ∧ CountsAgree fullGroupsSb ∧
      (fullGroupsFs 31).Consistent fullGroupsSb (fun _ => 0) (fun ino => ino == 2) ∧
      (fullGroupsFs 31).inUse fullGroupsSb 11 = false ∧
      ¬ AllocSound fullGroupsSb (fun _ => 0) false (fun ino => ino == 2) false
        (fullGroupsFs 31) := by
  have hcons := fullGroups_consistent (show 31 < 32 by decide)
  refine ⟨fullGroups_accepted, by decide, hcons, by decide, fun hsound => ?_⟩
  have halloc : (ext4IallocAllocInode fullGroupsSb (fun _ => 0) false false (fullGroupsFs 31)).1
      = .error Errno.ENXIO := by
    decide
  have herror := hsound.error Errno.ENXIO
    (ext4IallocAllocInode fullGroupsSb (fun _ => 0) false false (fullGroupsFs 31)).2
    (Prod.ext halloc rfl)
  exact absurd herror.1 (by decide)

/-- From the first group on, the free inode is found. -/
theorem allocSound_iff_root :
    AllocSound fullGroupsSb (fun _ => 0) false (fun ino => ino == 2) true (fullGroupsFs 0) := by
  have hcounts : CountsAgree fullGroupsSb := by decide
  refine (allocSound_iff fullGroups_accepted hcounts false true
    (fullGroups_consistent (by decide))).mpr ⟨?_, ?_⟩
  · intro _ hlater
    exact absurd (hlater 0 (Nat.zero_le _) (by decide)) (by decide)
  · intro _ g hfirst
    have hroom : counterRoom fullGroupsSb = 2 ^ 16 := by decide
    have hgroups : fullGroupsSb.probedGroups = 32 := by decide
    have hdirs : ∀ k < 32, ((fullGroupsFs 0).groups k).usedDirs ≤ 1 := by decide
    have hg := hfirst.1
    rw [hgroups] at hg
    rw [hroom]
    exact Nat.lt_of_le_of_lt (Nat.succ_le_succ (hdirs g hg)) (by decide)

end Ext4.OnMedium

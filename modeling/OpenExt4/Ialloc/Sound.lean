import OpenExt4.Ialloc.Groups

set_option autoImplicit false

/-! # What an inode allocation does

The loop of `ext4_ialloc_alloc_inode` looks at one group after the other and takes the first clear
bit of the first group that counts free inodes. Where the boot block counted in makes a group too
many (`Phantom`), the loop looks at a descriptor behind the last one as well. -/

namespace Ext4.OnMedium

open Bytes Ext4b

variable {s : Sblock} {crc32c : List UInt8 → ℕ} {dirs : ℕ → Bool} {g : ℕ}

/-! ## Consistent volumes -/

/-- The first inode that is not reserved. -/
def firstInode (s : Sblock) : ℕ := if rd32 s SBF_REV_LEVEL = 0 then 11 else rd32 s SBF_FIRST_INO

/-- Is the inode in use? -/
def InodeFs.inUse (s : Sblock) {n : ℕ} (fs : InodeFs n) (ino : ℕ) : Bool :=
  (fs.groups ((ino - 1) / s.inodesPerGroup)).used ((ino - 1) % s.inodesPerGroup)

/-- Every group of the volume is consistent, the reserved inodes are in use, the superblock counts
    the free inodes of all groups, and the last inode came from a group of the volume. -/
structure InodeFs.Consistent (s : Sblock) (crc32c : List UInt8 → ℕ) (dirs : ℕ → Bool) {n : ℕ}
    (fs : InodeFs n) : Prop where
  group : ∀ g < s.probedGroups, (fs.groups g).Consistent s crc32c dirs g
  reserved : ∀ ino, 1 ≤ ino → ino < firstInode s → ino ≤ s.inodesCount → fs.inUse s ino = true
  total : fs.freeInodes = ∑ g ∈ Finset.range s.probedGroups, (fs.groups g).freeInodes
  hint : fs.lastInodeBgId < s.probedGroups

/-- No inode taken or given back, no counter changed, and nothing touched behind the last group. -/
structure SameInodes (s : Sblock) {n : ℕ} (fs fs' : InodeFs n) : Prop where
  group : ∀ g < s.probedGroups, Unchanged s (fs.groups g) (fs'.groups g)
  behind : ∀ g, s.probedGroups ≤ g → fs'.groups g = fs.groups g
  freeInodes : fs'.freeInodes = fs.freeInodes
  hint : fs'.lastInodeBgId = fs.lastInodeBgId

section Same

variable {n : ℕ} {fs fs' fs'' : InodeFs n}

theorem SameInodes.refl (fs : InodeFs n) : SameInodes s fs fs :=
  ⟨fun _ _ => .refl _, fun _ _ => rfl, rfl, rfl⟩

theorem SameInodes.trans (h : SameInodes s fs fs') (h' : SameInodes s fs' fs'') :
    SameInodes s fs fs'' :=
  ⟨fun g hg => (h.group g hg).trans (h'.group g hg),
    fun g hg => (h'.behind g hg).trans (h.behind g hg), h'.freeInodes.trans h.freeInodes,
    h'.hint.trans h.hint⟩

/-- The group and the bit of an inode of the volume. -/
theorem inodeAt_of_mem {ino : ℕ} (hino : 1 ≤ ino) :
    inodeAt s ((ino - 1) / s.inodesPerGroup) ((ino - 1) % s.inodesPerGroup) = ino := by
  have hdiv := Nat.div_add_mod (ino - 1) s.inodesPerGroup
  have hmul := Nat.mul_comm ((ino - 1) / s.inodesPerGroup) s.inodesPerGroup
  unfold inodeAt
  omega

theorem inodeAt_sub_one {i : ℕ} (hi : i < s.inodesPerGroup) :
    (inodeAt s g i - 1) / s.inodesPerGroup = g ∧ (inodeAt s g i - 1) % s.inodesPerGroup = i := by
  rw [inodeAt, Nat.add_sub_cancel, Nat.mul_comm, Nat.mul_add_div (by omega), Nat.mul_add_mod]
  exact ⟨by rw [Nat.div_eq_of_lt hi, Nat.add_zero], Nat.mod_eq_of_lt hi⟩

theorem inUse_inodeAt (fs : InodeFs n) {i : ℕ} (hi : i < s.inodesPerGroup) :
    fs.inUse s (inodeAt s g i) = (fs.groups g).used i := by
  rw [InodeFs.inUse, (inodeAt_sub_one hi).1, (inodeAt_sub_one hi).2]

theorem group_of_mem (hgate : Gate s) {ino : ℕ} (hino : 1 ≤ ino) (hle : ino ≤ s.inodesCount) :
    (ino - 1) / s.inodesPerGroup < s.probedGroups := by
  have hcount := hgate.inodes_count
  exact Nat.div_lt_of_lt_mul (by omega)

theorem inodeAt_le (hgate : Gate s) (hg : g < s.probedGroups) {i : ℕ}
    (hi : i < s.inodesPerGroup) : inodeAt s g i ≤ s.inodesCount := by
  have hcount := hgate.inodes_count
  have hmul : (g + 1) * s.inodesPerGroup ≤ s.probedGroups * s.inodesPerGroup :=
    Nat.mul_le_mul_right _ hg
  rw [Nat.add_mul, Nat.one_mul] at hmul
  rw [Nat.mul_comm] at hcount
  unfold inodeAt
  omega

theorem SameInodes.inUse (hgate : Gate s) (h : SameInodes s fs fs') {ino : ℕ} (hino : 1 ≤ ino)
    (hle : ino ≤ s.inodesCount) : fs'.inUse s ino = fs.inUse s ino :=
  (h.group _ (group_of_mem hgate hino hle)).used _
    (Nat.mod_lt _ (Nat.lt_of_lt_of_le (by decide) hgate.inodes_per_group_ge))

end Same

/-! ## The counts of the source -/

/-- A group of the volume has as many inodes as the superblock says, and one behind the last none. -/
theorem inodesInGroup_eq (hgate : Gate s) (hcounts : CountsAgree s) :
    (∀ g < s.probedGroups, ext4InodesInGroupCnt s g = s.inodesPerGroup) ∧
      (Phantom s → ext4InodesInGroupCnt s s.probedGroups = 0) := by
  have hcnt := blockGroupCnt_eq hgate hcounts
  have hpos := hgate.probedGroups_pos
  have hlt := hgate.probedGroups_lt
  have hinodes := hgate.inodes_count
  have hinodesLt : s.inodesCount < 2 ^ 32 := rd32_lt _ _
  have hsub : sub32 (ext4BlockGroupCnt s) 1 = countedGroups s - 1 := by
    rw [hcnt, sub32_one (by unfold countedGroups; omega) (by unfold countedGroups; split <;> omega)]
  unfold ext4InodesInGroupCnt mul32
  rw [hsub, Nat.mul_comm _ s.inodesPerGroup]
  by_cases hphantom : Phantom s
  · have hcounted : countedGroups s - 1 = s.probedGroups := by simp [countedGroups, hphantom]
    rw [hcounted]
    refine ⟨fun g hg => if_pos hg, fun _ => ?_⟩
    rw [if_neg (Nat.lt_irrefl _), hinodes, Nat.mod_eq_of_lt hinodesLt,
      sub32_eq le_rfl hinodesLt, Nat.sub_self]
  · have hcounted : countedGroups s - 1 = s.probedGroups - 1 := by simp [countedGroups, hphantom]
    rw [hcounted]
    refine ⟨fun g hg => ?_, fun h => absurd h hphantom⟩
    have hsplit : s.inodesPerGroup * s.probedGroups
        = s.inodesPerGroup * (s.probedGroups - 1) + s.inodesPerGroup := by
      rw [← Nat.mul_succ, Nat.succ_eq_add_one, Nat.sub_add_cancel hpos]
    split
    · rfl
    · rw [Nat.mod_eq_of_lt (by omega), sub32_eq (by omega) hinodesLt]
      omega

theorem bgidxToInode_eq (hgate : Gate s) (hg : g < s.probedGroups) {i : ℕ}
    (hi : i < s.inodesPerGroup) : ext4IallocBgidxToInode s i g = inodeAt s g i := by
  have hle := inodeAt_le hgate hg hi
  have hinodesLt : s.inodesCount < 2 ^ 32 := rd32_lt _ _
  unfold inodeAt at hle ⊢
  rw [ext4IallocBgidxToInode, mul32, Nat.mod_eq_of_lt (show g * s.inodesPerGroup < 2 ^ 32 by omega),
    Nat.mod_eq_of_lt (by omega), Nat.add_assoc]

/-! ## One group -/

/-- The inode of bit `i` of group `g` is taken; other groups were looked at. -/
structure Takes (s : Sblock) (crc32c : List UInt8 → ℕ) (dirs : ℕ → Bool) {n : ℕ} (isDir : Bool)
    (fs : InodeFs n) (g i : ℕ) (fs' : InodeFs n) : Prop where
  bit_lt : i < s.inodesPerGroup
  clear : (fs.groups g).used i = false
  group : Took s (fs.groups g) (fs'.groups g) i isDir
  readable : (fs'.groups g).Readable
  verifies : (fs'.groups g).inodeUninit = false ∧
    ext4IallocVerifyBitmapCsum s crc32c (fs'.groups g).bitmap (fs'.groups g) = true
  other : ∀ k < s.probedGroups, k ≠ g → Unchanged s (fs.groups k) (fs'.groups k) ∧
    (fs'.groups k).Consistent s crc32c dirs k
  behind : ∀ k, s.probedGroups ≤ k → fs'.groups k = fs.groups k
  freeInodes : fs'.freeInodes = sub32 fs.freeInodes 1
  hint : fs'.lastInodeBgId = g

variable {fs fs' : InodeFs s.blockSize} {isDir : Bool}

/-- A group of a consistent volume as a look at it leaves it. -/
theorem putGroup_same (hgate : Gate s) (h : fs.Consistent s crc32c dirs) (hg : g < s.probedGroups)
    {bg : InodeGroup s.blockSize} (hsame : Unchanged s (fs.groups g) bg)
    (hcons : bg.Consistent s crc32c dirs g) :
    SameInodes s fs (fs.putGroup g bg) ∧ (fs.putGroup g bg).Consistent s crc32c dirs := by
  have hput : SameInodes s fs (fs.putGroup g bg) := by
    refine ⟨fun k _ => ?_, fun k hk => ?_, rfl, rfl⟩
    · by_cases hkg : k = g
      · subst hkg
        simpa [InodeFs.putGroup] using hsame
      · simpa [InodeFs.putGroup, hkg] using Unchanged.refl (fs.groups k)
    · exact Function.update_of_ne (by omega) ..
  refine ⟨hput, ?_, ?_, ?_, h.hint⟩
  · intro k hk
    by_cases hkg : k = g
    · subst hkg
      simpa [InodeFs.putGroup] using hcons
    · simpa [InodeFs.putGroup, hkg] using h.group k hk
  · intro ino hpos hlt hle
    rw [hput.inUse hgate hpos hle]
    exact h.reserved ino hpos hlt hle
  · rw [hput.freeInodes, h.total]
    exact Finset.sum_congr rfl fun k hk => (hput.group k (Finset.mem_range.mp hk)).freeInodes.symm

/-- A group that counts no free inode is passed by. -/
theorem tryInodeGroup_full (unaligned isDir : Bool) (hgate : Gate s) (h : fs.Consistent s crc32c dirs)
    (hg : g < s.probedGroups) (hfull : (fs.groups g).freeInodes = 0) :
    ∃ fs', tryInodeGroup s crc32c unaligned isDir fs g = (none, fs') ∧ SameInodes s fs fs' ∧
      fs'.Consistent s crc32c dirs := by
  obtain ⟨bg, hget, -, hsame, hcons⟩ := getBlockGroupRef_consistent hgate (h.group g hg)
  refine ⟨fs.putGroup g bg, ?_, putGroup_same hgate h hg hsame hcons⟩
  unfold tryInodeGroup
  rw [hget]
  exact if_pos (hsame.freeInodes.trans hfull)

theorem takes_takeInode (h : fs.Consistent s crc32c dirs) {bg : InodeGroup s.blockSize}
    (hg : g < s.probedGroups) (hsame : Unchanged s (fs.groups g) bg) (hreadable : bg.Readable)
    (hinit : bg.inodeUninit = false) {i : ℕ} (hi : i < s.inodesPerGroup) (hclear : bg.used i = false)
    (htook : Took s bg (takeInGroup s crc32c bg g i isDir) i isDir) :
    Takes s crc32c dirs isDir fs g i (takeInode s crc32c fs bg g i isDir) := by
  obtain ⟨hreadable', hverifies, huninit⟩ := takeInGroup_readable (s := s) (g := g) hreadable i isDir
  have hself : (takeInode s crc32c fs bg g i isDir).groups g
      = takeInGroup s crc32c bg g i isDir := Function.update_self ..
  have hother (k : ℕ) (hk : k ≠ g) :
      (takeInode s crc32c fs bg g i isDir).groups k = fs.groups k := Function.update_of_ne hk ..
  constructor
  · exact hi
  · rw [← hsame.used i hi, hclear]
  · rw [hself]
    exact hsame.took htook
  · rw [hself]
    exact hreadable'
  · rw [hself]
    exact ⟨huninit.trans hinit, hverifies⟩
  · intro k hk hkg
    rw [hother k hkg]
    exact ⟨.refl _, h.group k hk⟩
  · exact fun k hk => hother k (by omega)
  · rfl
  · rfl

/-- A group that counts free inodes gives the first of them. -/
theorem tryInodeGroup_takes (unaligned isDir : Bool) (hgate : Gate s) (hcounts : CountsAgree s)
    (h : fs.Consistent s crc32c dirs) (hg : g < s.probedGroups)
    (hfree : (fs.groups g).freeInodes ≠ 0) :
    ∃ i fs', tryInodeGroup s crc32c unaligned isDir fs g = (some (.ok (inodeAt s g i)), fs') ∧
      Takes s crc32c dirs isDir fs g i fs' := by
  obtain ⟨bg, hget, hinit, hsame, hcons⟩ := getBlockGroupRef_consistent hgate (h.group g hg)
  have hcount := (inodesInGroup_eq hgate hcounts).1 g hg
  have hfirst := bmapBitFindClr_spec unaligned bg.bitmap 0 s.inodesPerGroup
  have hbits (i : ℕ) : bg.used i = bit bg.bitmap i := by simp [InodeGroup.used, hinit]
  obtain ⟨k, hk, hclear⟩ : ∃ k < s.inodesPerGroup, bg.used k = false := by
    refine exists_of_count_ne_zero ?_
    rw [← hcons.free, hsame.freeInodes]
    exact hfree
  unfold tryInodeGroup
  rw [hget]
  dsimp only
  rw [if_neg (by rw [hsame.freeInodes]; exact hfree), hcons.readable.bitmapErr]
  dsimp only
  rw [hcons.verifies hinit, Bool.not_true, if_neg Bool.false_ne_true, hcount]
  cases hfind : bmapBitFindClr unaligned bg.bitmap 0 s.inodesPerGroup with
  | none =>
      rw [hfind] at hfirst
      rw [hbits, hfirst k (Nat.zero_le _) hk] at hclear
      exact absurd hclear.symm Bool.false_ne_true
  | some i =>
      rw [hfind] at hfirst
      obtain ⟨-, hi, hbit, -⟩ := hfirst
      have htook := took_takeInGroup hgate hcount hcons hinit hi ((hbits i).trans hbit) isDir
      refine ⟨i, takeInode s crc32c fs bg g i isDir, ?_, ?_⟩
      · rw [← bgidxToInode_eq hgate hg hi]
      exact takes_takeInode h hg hsame hcons.readable hinit hi ((hbits i).trans hbit) htook

/-! ## All groups -/

/-- A volume that was looked at before tells the same of what was taken from it. -/
theorem SameInodes.takes {fs₁ : InodeFs s.blockSize} {i : ℕ} (h : SameInodes s fs fs₁)
    (htakes : Takes s crc32c dirs isDir fs₁ g i fs') (hg : g < s.probedGroups) :
    Takes s crc32c dirs isDir fs g i fs' where
  bit_lt := htakes.bit_lt
  clear := by rw [← (h.group g hg).used i htakes.bit_lt, htakes.clear]
  group := (h.group g hg).took htakes.group
  readable := htakes.readable
  verifies := htakes.verifies
  other k hk hkg := ⟨(h.group k hk).trans (htakes.other k hk hkg).1, (htakes.other k hk hkg).2⟩
  behind k hk := (htakes.behind k hk).trans (h.behind k hk)
  freeInodes := by rw [htakes.freeInodes, h.freeInodes]
  hint := htakes.hint

/-- Groups of the volume one after the other: none of them counts a free inode, or the first that
    does gives one. -/
theorem tryInodeGroups_cases (unaligned isDir : Bool) (hgate : Gate s) (hcounts : CountsAgree s)
    (h : fs.Consistent s crc32c dirs) (count a : ℕ) (hle : a + count ≤ s.probedGroups) :
    ((∀ k, a ≤ k → k < a + count → (fs.groups k).freeInodes = 0) ∧
      ∃ fs', tryInodeGroups s crc32c unaligned isDir count a fs = (none, fs') ∧
        SameInodes s fs fs' ∧ fs'.Consistent s crc32c dirs) ∨
    ∃ g, a ≤ g ∧ g < a + count ∧ (fs.groups g).freeInodes ≠ 0 ∧
      (∀ k, a ≤ k → k < g → (fs.groups k).freeInodes = 0) ∧
      ∃ i fs', tryInodeGroups s crc32c unaligned isDir count a fs
          = (some (.ok (inodeAt s g i)), fs') ∧ Takes s crc32c dirs isDir fs g i fs' := by
  induction count generalizing a fs with
  | zero => exact .inl ⟨fun k hlo hhi => by omega, fs, rfl, .refl fs, h⟩
  | succ count ih =>
      by_cases hfree : (fs.groups a).freeInodes = 0
      · obtain ⟨fs₁, htry, hsame, hcons⟩ := tryInodeGroup_full unaligned isDir hgate h (by omega) hfree
        have hcount (k : ℕ) (hk : k < s.probedGroups) :=
          (hsame.group k hk).freeInodes
        rw [tryInodeGroups, htry]
        rcases ih hcons (a + 1) (by omega) with
          ⟨hfull, fs', hrest, hsame', hcons'⟩ | ⟨g, hlo, hhi, hfree', hfull, i, fs', hrest, htakes⟩
        · refine .inl ⟨fun k hlo hhi => ?_, fs', hrest, hsame.trans hsame', hcons'⟩
          by_cases hk : k = a
          · rw [hk, hfree]
          · rw [← hcount k (by omega), hfull k (by omega) (by omega)]
        · refine .inr ⟨g, by omega, by omega, ?_, fun k hlo' hhi' => ?_, i, fs', hrest,
            hsame.takes htakes (by omega)⟩
          · rw [← hcount g (by omega)]
            exact hfree'
          · by_cases hk : k = a
            · rw [hk, hfree]
            · rw [← hcount k (by omega), hfull k (by omega) hhi']
      · obtain ⟨i, fs', htry, htakes⟩ := tryInodeGroup_takes unaligned isDir hgate hcounts h
          (by omega) hfree
        refine .inr ⟨a, le_rfl, by omega, hfree, fun k hlo hhi => by omega, i, fs', ?_, htakes⟩
        rw [tryInodeGroups, htry]

end Ext4.OnMedium

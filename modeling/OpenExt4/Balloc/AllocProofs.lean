import Mathlib.Algebra.Order.BigOperators.Group.Finset
import OpenExt4.Balloc.Alloc

set_option autoImplicit false

/-! # What an allocation does

The search of `ext4_balloc_alloc_block` goes through slots: the group of the goal, from the goal on,
and then every group in turn, the goal's once more at the end. Each look into a slot finds the first
clear bit of its range (`FirstClear`), so the outcome of the call is that of the first slot that
does not pass. -/

namespace Ext4

open Bytes

variable {sb : Sb}

/-! ## Updates of one group -/

section Updates

variable (fs : Fs sb) (g : ℕ) (bmap : Buf sb.blockSize) (cnt : ℕ)

@[simp] theorem Fs.setGroup_self : fs.setGroup g bmap cnt g =
    { fs.groups g with bitmap := bmap, freeBlocks := cnt % 2 ^ 32 % freeCountRoom sb } :=
  Function.update_self ..

@[simp] theorem Fs.setGroup_of_ne {g' : ℕ} (h : g' ≠ g) :
    fs.setGroup g bmap cnt g' = fs.groups g' := Function.update_of_ne h ..

@[simp] theorem takeBlock_groups (i : ℕ) : (takeBlock fs g i).groups =
    fs.setGroup g (bmapBitSet (fs.groups g).bitmap i)
      ((fs.groups g).freeBlocks + (2 ^ 32 - 1)) := rfl

@[simp] theorem giveBlocks_groups : (giveBlocks fs g bmap cnt).groups =
    fs.setGroup g bmap ((fs.groups g).freeBlocks + cnt) := rfl

end Updates

theorem freeCountRoom_le (sb : Sb) : freeCountRoom sb ≤ 2 ^ 32 := by
  unfold freeCountRoom
  split <;> decide

theorem freeCountRoom_pos (sb : Sb) : 0 < freeCountRoom sb := by
  unfold freeCountRoom
  split <;> decide

/-- A count the descriptor has room for is stored as it is. -/
theorem storedCount_eq {cnt : ℕ} (h : cnt < freeCountRoom sb) :
    cnt % 2 ^ 32 % freeCountRoom sb = cnt := by
  have := freeCountRoom_le sb
  rw [Nat.mod_eq_of_lt (show cnt < 2 ^ 32 by omega), Nat.mod_eq_of_lt h]

theorem inodeUnits_le (sb : Sb) : inodeUnits sb ≤ 2 ^ 7 := by
  have := (hugeShift_eq sb)
  unfold inodeUnits
  rw [← this.1]
  exact Nat.pow_le_pow_right (by decide) this.2

theorem inodeUnits_pos (sb : Sb) : 0 < inodeUnits sb := by
  unfold inodeUnits
  rw [← (hugeShift_eq sb).1]
  exact Nat.two_pow_pos _

/-- The counts an inode can tell. -/
theorem getBlocksCount_lt {inode : InodeBlocks} (h : inode.Wf) :
    ext4InodeGetBlocksCount sb inode ≤ 2 ^ 48 * 2 ^ 7 := by
  have hlo := h.lo
  have hhigh := h.high
  have hpow : 2 ^ hugeShift sb ≤ 2 ^ 7 := Nat.pow_le_pow_right (by decide) (hugeShift_eq sb).2
  have hcnt : inode.blocksCountLo + inode.blocksHigh * 2 ^ 32 ≤ 2 ^ 48 := by omega
  have hmul : (inode.blocksCountLo + inode.blocksHigh * 2 ^ 32) * 2 ^ hugeShift sb
      ≤ 2 ^ 48 * 2 ^ 7 := Nat.mul_le_mul hcnt hpow
  unfold ext4InodeGetBlocksCount
  dsimp only
  split
  · split
    · exact (Nat.mod_le _ _).trans hmul
    · omega
  · omega

theorem setBlocksCount_wf {inode : InodeBlocks} (h : inode.Wf) (count : ℕ) :
    (ext4InodeSetBlocksCount sb inode count).Wf := by
  unfold ext4InodeSetBlocksCount
  split
  · next hle => exact ⟨by dsimp only; omega, by dsimp only; omega⟩
  · split
    · exact h
    · split
      · exact ⟨by dsimp only; omega, by dsimp only; omega⟩
      · exact ⟨by dsimp only; omega, by dsimp only; omega⟩

namespace Fs

/-- Clear bits move between the groups only where a bitmap changes. -/
theorem sum_clear {fs fs' : Fs sb} {g : ℕ} (hg : g < sb.groups)
    (hrest : ∀ g' < sb.groups, g' ≠ g → fs'.clear g' = fs.clear g') :
    (∑ k ∈ Finset.range sb.groups, fs'.clear k) + fs.clear g
      = (∑ k ∈ Finset.range sb.groups, fs.clear k) + fs'.clear g := by
  have hmem : g ∈ Finset.range sb.groups := Finset.mem_range.mpr hg
  have heq : ∑ k ∈ (Finset.range sb.groups).erase g, fs'.clear k
      = ∑ k ∈ (Finset.range sb.groups).erase g, fs.clear k := by
    refine Finset.sum_congr rfl fun k hk => ?_
    rw [Finset.mem_erase, Finset.mem_range] at hk
    exact hrest k hk.2 hk.1
  rw [← Finset.add_sum_erase _ _ hmem, ← Finset.add_sum_erase _ fs.clear hmem, heq]
  omega

theorem clear_of_bitmap {fs fs' : Fs sb} {g : ℕ}
    (h : (fs'.groups g).bitmap = (fs.groups g).bitmap) :
    fs'.clear g = fs.clear g := by
  unfold clear
  rw [h]

/-- The volume has fewer free blocks than the superblock can count. -/
theorem sum_clear_lt (fs : Fs sb) : ∑ k ∈ Finset.range sb.groups, fs.clear k < 2 ^ 49 := by
  have hle : ∀ k ∈ Finset.range sb.groups, fs.clear k ≤ 2 ^ 19 := fun k _ =>
    ((clearBits_le _ _).trans (sb.realBlocks_le k)).trans sb.blocksPerGroup_le
  have hsum := Finset.sum_le_card_nsmul _ _ _ hle
  have := sb.groups_lt
  rw [Finset.card_range, nsmul_eq_mul, Nat.cast_id] at hsum
  exact hsum.trans_lt (by omega)

namespace Consistent

variable {fs : Fs sb}

theorem descErr (h : fs.Consistent) {g : ℕ} (hg : g < sb.groups) :
    (fs.groups g).descErr = none := by
  have hread := h.readable g hg
  unfold Group.readErr at hread
  split at hread
  · cases hread
  · assumption

theorem bitmapErr (h : fs.Consistent) {g : ℕ} (hg : g < sb.groups) :
    (fs.groups g).bitmapErr = none := by
  have hread := h.readable g hg
  unfold Group.readErr at hread
  rwa [h.descErr hg] at hread

/-- A clear bit of a bitmap block is that of a block of the volume. -/
theorem lt_realBlocks (h : fs.Consistent) {g i : ℕ} (hg : g < sb.groups)
    (hi : i < sb.blockSize * 8) (hclear : bit (fs.groups g).bitmap i = false) :
    i < sb.realBlocks g := by
  by_contra hge
  rw [h.padding g hg i (by omega) hi] at hclear
  cases hclear

end Consistent

end Fs

/-! ## Taking a block -/

/-- A bit of the group's bitmap block. -/
theorem Sb.lt_bits {g i : ℕ} (hi : i < sb.realBlocks g) : i < 8 * sb.blockSize := by
  have := sb.realBlocks_le g
  have := sb.blocksPerGroup_le_bits
  omega

theorem setGroup_readErr (fs : Fs sb) (g : ℕ) (bmap : Buf sb.blockSize) (cnt g' : ℕ) :
    (fs.setGroup g bmap cnt g').readErr = (fs.groups g').readErr := by
  by_cases h : g' = g
  · subst h
    rw [Fs.setGroup_self]
    rfl
  · rw [Fs.setGroup_of_ne _ _ _ _ h]

theorem bit_takeBlock (fs : Fs sb) {g i : ℕ} (hi : i < 8 * sb.blockSize) (g' j : ℕ) :
    bit ((takeBlock fs g i).groups g').bitmap j
      = (decide (g' = g ∧ j = i) || bit (fs.groups g').bitmap j) := by
  by_cases hg' : g' = g
  · subst hg'
    rw [takeBlock_groups, Fs.setGroup_self]
    dsimp only
    rw [bit_bmapBitSet hi]
    simp
  · rw [takeBlock_groups, Fs.setGroup_of_ne _ _ _ _ hg']
    simp [hg']

theorem clear_takeBlock_of_ne (fs : Fs sb) {g g' : ℕ} (i : ℕ) (h : g' ≠ g) :
    (takeBlock fs g i).clear g' = fs.clear g' :=
  Fs.clear_of_bitmap (by rw [takeBlock_groups, Fs.setGroup_of_ne _ _ _ _ h])

theorem clear_takeBlock (fs : Fs sb) {g i : ℕ} (hi : i < sb.realBlocks g)
    (hclear : bit (fs.groups g).bitmap i = false) :
    (takeBlock fs g i).clear g + 1 = fs.clear g := by
  unfold Fs.clear
  rw [takeBlock_groups, Fs.setGroup_self]
  exact clearBits_bmapBitSet hi (Sb.lt_bits hi) hclear

section Taken

variable {fs : Fs sb} {g i : ℕ}

/-- The free count of the group, one less. -/
theorem takeBlock_freeBlocks (h : fs.Consistent) (hg : g < sb.groups) (hi : i < sb.realBlocks g)
    (hclear : bit (fs.groups g).bitmap i = false) :
    ((takeBlock fs g i).groups g).freeBlocks = (takeBlock fs g i).clear g := by
  have hpred := clear_takeBlock fs hi hclear
  have hroom := h.group_room g hg
  have hle := freeCountRoom_le sb
  rw [takeBlock_groups, Fs.setGroup_self]
  dsimp only
  rw [h.group g hg, show fs.clear g + (2 ^ 32 - 1)
    = (takeBlock fs g i).clear g + 2 ^ 32 by omega, Nat.add_mod_right]
  exact storedCount_eq (by omega)

theorem takeBlock_total (h : fs.Consistent) (hg : g < sb.groups) (hi : i < sb.realBlocks g)
    (hclear : bit (fs.groups g).bitmap i = false) :
    (takeBlock fs g i).freeBlocks + 1 = fs.freeBlocks ∧
      (takeBlock fs g i).freeBlocks
        = ∑ k ∈ Finset.range sb.groups, (takeBlock fs g i).clear k := by
  have hpred := clear_takeBlock fs hi hclear
  have hsum := Fs.sum_clear hg fun g' _ hne => clear_takeBlock_of_ne fs i hne
  have hlt := fs.sum_clear_lt
  have htotal := h.total
  have hnew : (takeBlock fs g i).freeBlocks = (fs.freeBlocks + (2 ^ 64 - 1)) % 2 ^ 64 := rfl
  omega

/-- **Taking a free block of a group leaves the accounts true.** -/
theorem Fs.Consistent.takeBlock (h : fs.Consistent) (hg : g < sb.groups) (hi : i < sb.realBlocks g)
    (hclear : bit (fs.groups g).bitmap i = false) : (takeBlock fs g i).Consistent where
  readable g' hg' := by
    rw [takeBlock_groups, setGroup_readErr]
    exact h.readable g' hg'
  padding g' hg' j hlo hhi := by
    rw [bit_takeBlock fs (Sb.lt_bits hi), h.padding g' hg' j hlo hhi, Bool.or_true]
  group g' hg' := by
    by_cases hne : g' = g
    · subst hne
      exact takeBlock_freeBlocks h hg hi hclear
    · rw [clear_takeBlock_of_ne fs i hne, takeBlock_groups, Fs.setGroup_of_ne _ _ _ _ hne]
      exact h.group g' hg'
  group_room g' hg' := by
    by_cases hne : g' = g
    · subst hne
      have := clear_takeBlock fs hi hclear
      have := h.group_room g' hg
      omega
    · rw [clear_takeBlock_of_ne fs i hne]
      exact h.group_room g' hg'
  total := (takeBlock_total h hg hi hclear).2
  inode := setBlocksCount_wf h.inode _

end Taken

/-! ## One look into a group -/

/-- The group with bits from `s` on passes: its descriptor counts no free block, or no bit up to the
    size the source gives the group is clear. -/
def Fs.Passes (fs : Fs sb) (g s : ℕ) : Prop :=
  (fs.groups g).descErr = none ∧ ((fs.groups g).freeBlocks = 0 ∨
    (fs.groups g).bitmapErr = none ∧
      FirstClear (fs.groups g).bitmap s (ext4BlocksInGroupCnt sb g) none)

theorem firstInBgIndex_lt (sb : Sb) (g : ℕ) : firstInBgIndex sb g < sb.blocksPerGroup :=
  Nat.mod_lt _ sb.blocksPerGroup_pos

/-- With the product cut to 32 bits, the search of a group may start behind its first block. -/
theorem firstInBgIndex_eq (sb : Sb) (g : ℕ) :
    firstInBgIndex sb g = g * sb.blocksPerGroup % 2 ^ 32 % sb.blocksPerGroup := by
  have := sb.firstDataBlock_le
  unfold firstInBgIndex ext4FsAddrToIdxBg ext4BallocGetBlockOfBgid skipBoot
  split_ifs <;> first | rfl | (congr 1; omega)

theorem goalIndex_lt (sb : Sb) (goal : ℕ) : goalIndex sb goal < sb.blocksPerGroup :=
  max_lt (Nat.mod_lt _ sb.blocksPerGroup_pos) (firstInBgIndex_lt sb _)

theorem findInGroup_spec (unaligned : Bool) (g : ℕ) (bmap : Buf sb.blockSize) :
    FirstClear bmap (firstInBgIndex sb g) (ext4BlocksInGroupCnt sb g)
      (findInGroup unaligned sb g bmap) := bmapBitFindClr_spec ..

/-- The three searches in the goal's group come to the first clear bit, if the bits behind the
    group are set. -/
theorem findNearGoal_spec (unaligned : Bool) {g idx : ℕ} {bmap : Buf sb.blockSize}
    (hidx : idx < sb.blocksPerGroup)
    (hpad : ∀ i, ext4BlocksInGroupCnt sb g ≤ i → i < sb.blocksPerGroup → bit bmap i = true) :
    FirstClear bmap idx (ext4BlocksInGroupCnt sb g) (findNearGoal unaligned sb g idx bmap) := by
  unfold findNearGoal
  split
  · next hclear =>
      have hclear : bit bmap idx = false := by simpa using hclear
      have hlt : idx < ext4BlocksInGroupCnt sb g := by
        by_contra hge
        rw [hpad idx (by omega) hidx] at hclear
        cases hclear
      exact ⟨le_rfl, hlt, hclear, fun j hlo hhi => by omega⟩
  · next hset =>
      dsimp only
      generalize hend : min ((idx + 63) / 64 * 64) (ext4BlocksInGroupCnt sb g) = endIdx
      have hnear := scanBits_spec bmap (idx + 1) (endIdx - (idx + 1))
      split
      · next i hi =>
          rw [hi] at hnear
          refine FirstClear.of_suffix (m := idx + 1) (by omega) (fun j hlo hhi => ?_)
            (hnear.of_prefix (by have := hnear.2.1; have := hnear.1; omega))
          obtain rfl : j = idx := by omega
          simpa using hset
      · exact bmapBitFindClr_spec ..

section Look

variable {fs : Fs sb} {g s : ℕ} {find : Buf sb.blockSize → Option ℕ}

theorem lookInGroup_none_iff
    (hfind : FirstClear (fs.groups g).bitmap s (ext4BlocksInGroupCnt sb g)
      (find (fs.groups g).bitmap)) :
    lookInGroup fs g find = .ok none ↔ fs.Passes g s := by
  unfold lookInGroup Fs.Passes
  cases hdesc : (fs.groups g).descErr with
  | some e => simp
  | none =>
      by_cases hfree : (fs.groups g).freeBlocks = 0
      · simp [hfree]
      · cases hbitmap : (fs.groups g).bitmapErr with
        | some e => simp [hfree]
        | none =>
            simp only [hfree, if_false, Except.ok.injEq, true_and, false_or]
            constructor
            · intro hnone
              rwa [hnone] at hfind
            · exact fun h => hfind.unique h

theorem firstClear_of_look
    (hfind : FirstClear (fs.groups g).bitmap s (ext4BlocksInGroupCnt sb g)
      (find (fs.groups g).bitmap)) {i : ℕ} (h : lookInGroup fs g find = .ok (some i)) :
    FirstClear (fs.groups g).bitmap s (ext4BlocksInGroupCnt sb g) (some i) := by
  unfold lookInGroup at h
  split at h
  · cases h
  · split at h
    · cases h
    · split at h
      · cases h
      · rwa [Except.ok.inj h] at hfind

/-- A look fails with the error of a block read. -/
theorem error_of_look {e : Errno} (h : lookInGroup fs g find = .error e) : e ≠ Errno.ENOSPC := by
  have hread : ∀ r : ReadErr, r.errno ≠ Errno.ENOSPC := fun r => by
    cases r <;> decide
  unfold lookInGroup at h
  split at h
  · cases h
    exact hread _
  · split at h
    · cases h
    · split at h
      · cases h
        exact hread _
      · cases h

/-- A look into a group of a consistent volume is not an error. -/
theorem Fs.Consistent.look_ok (h : fs.Consistent) (hg : g < sb.groups) {e : Errno} :
    lookInGroup fs g find ≠ .error e := by
  unfold lookInGroup
  rw [h.descErr hg, h.bitmapErr hg]
  dsimp only
  split <;> exact nofun

end Look

/-! ## The slots of a search -/

section Slots

variable (sb) (goal : ℕ)

/-- The group of slot `k`: from the goal's on, all the source counts, and the goal's again. -/
def slotGroup (k : ℕ) : ℕ :=
  (ext4BallocGetBgidOfBlock sb (clampGoal sb goal) + k) % ext4BlockGroupCnt sb

/-- The bit slot `k` is searched from. -/
def slotFrom (k : ℕ) : ℕ :=
  if k = 0 then goalIndex sb (clampGoal sb goal) else firstInBgIndex sb (slotGroup sb goal k)

/-- The search of slot `k`. -/
def slotFind (unaligned : Bool) (k : ℕ) : Buf sb.blockSize → Option ℕ :=
  if k = 0 then findNearGoal unaligned sb (slotGroup sb goal 0) (goalIndex sb (clampGoal sb goal))
  else findInGroup unaligned sb (slotGroup sb goal k)

theorem groups_le_cnt : sb.groups ≤ ext4BlockGroupCnt sb := by
  rw [ext4BlockGroupCnt_eq]
  omega

theorem cnt_pos : 0 < ext4BlockGroupCnt sb := by
  have := sb.groups_pos
  have := groups_le_cnt sb
  omega

theorem clampGoal_hasBlock : sb.HasBlock (clampGoal sb goal) := by
  unfold clampGoal
  split
  · assumption
  · exact ⟨le_rfl, sb.first_data_block_lt⟩

/-- The first slot is the goal's group, a group of the volume. -/
theorem slotGroup_zero : slotGroup sb goal 0 = ext4BallocGetBgidOfBlock sb (clampGoal sb goal) ∧
    slotGroup sb goal 0 < sb.groups := by
  have hgoal := clampGoal_hasBlock sb goal
  have hlt := hgoal.index.1
  have hle := groups_le_cnt sb
  unfold slotGroup
  rw [ext4BallocGetBgidOfBlock_eq hgoal, Nat.add_zero, Nat.mod_eq_of_lt (by omega)]
  exact ⟨rfl, hlt⟩

theorem slotGroup_lt (k : ℕ) : slotGroup sb goal k < ext4BlockGroupCnt sb :=
  Nat.mod_lt _ (cnt_pos sb)

theorem slotGroup_succ (k : ℕ) : (slotGroup sb goal k + 1) % ext4BlockGroupCnt sb
    = slotGroup sb goal (k + 1) := by
  unfold slotGroup
  rw [Nat.mod_add_mod, Nat.add_assoc]

/-- Every group has a slot behind the first. -/
theorem exists_slot {g : ℕ} (hg : g < ext4BlockGroupCnt sb) :
    ∃ k, k ≠ 0 ∧ k ≤ ext4BlockGroupCnt sb ∧ slotGroup sb goal k = g := by
  have hstart := slotGroup_lt sb goal 0
  have hzero : slotGroup sb goal 0 = ext4BallocGetBgidOfBlock sb (clampGoal sb goal) :=
    (slotGroup_zero sb goal).1
  rw [hzero] at hstart
  unfold slotGroup
  generalize ext4BallocGetBgidOfBlock sb (clampGoal sb goal) = b at *
  by_cases hle : g ≤ b
  · refine ⟨ext4BlockGroupCnt sb - b + g, by omega, by omega, ?_⟩
    rw [show b + (ext4BlockGroupCnt sb - b + g) = g + ext4BlockGroupCnt sb by omega,
      Nat.add_mod_right, Nat.mod_eq_of_lt hg]
  · refine ⟨g - b, by omega, by omega, ?_⟩
    rw [show b + (g - b) = g by omega, Nat.mod_eq_of_lt hg]

end Slots

variable {fs : Fs sb}

/-- Slot `k` is passed. -/
def Fs.PassesSlot (fs : Fs sb) (goal k : ℕ) : Prop :=
  fs.Passes (slotGroup sb goal k) (slotFrom sb goal k)

/-- The search of a slot of a consistent volume comes to the first clear bit of its range. -/
theorem slotFind_spec (unaligned : Bool) (h : fs.Consistent) (goal k : ℕ) :
    FirstClear (fs.groups (slotGroup sb goal k)).bitmap (slotFrom sb goal k)
      (ext4BlocksInGroupCnt sb (slotGroup sb goal k))
      (slotFind sb goal unaligned k (fs.groups (slotGroup sb goal k)).bitmap) := by
  unfold slotFrom slotFind
  by_cases hk : k = 0
  · subst hk
    have hg := (slotGroup_zero sb goal).2
    rw [if_pos rfl, if_pos rfl]
    refine findNearGoal_spec unaligned (goalIndex_lt sb _) fun i hlo hhi => ?_
    have := (ext4BlocksInGroupCnt_bounds sb hg).1
    have := sb.blocksPerGroup_le_bits
    exact h.padding _ hg i (by omega) (by omega)
  · rw [if_neg hk, if_neg hk]
    exact findInGroup_spec ..

/-- The search stops at slot `k`. -/
def Fs.Stops (fs : Fs sb) (goal k : ℕ) : Prop :=
  (∀ k' < k, fs.PassesSlot goal k') ∧ ¬ fs.PassesSlot goal k

theorem Fs.Stops.unique {goal k k' : ℕ} (h : fs.Stops goal k) (h' : fs.Stops goal k') : k = k' := by
  rcases Nat.lt_trichotomy k k' with hlt | heq | hgt
  · exact (h.2 (h'.1 k hlt)).elim
  · exact heq
  · exact (h'.2 (h.1 k' hgt)).elim

/-- What a slot of a search comes to. -/
inductive SlotOutcome (unaligned : Bool) (fs : Fs sb) (goal k : ℕ) : Except Errno ℕ × Fs sb → Prop
  | found {i : ℕ}
      (look : lookInGroup fs (slotGroup sb goal k) (slotFind sb goal unaligned k) = .ok (some i)) :
      SlotOutcome unaligned fs goal k (.ok (ext4FsBgIdxToAddr sb i (slotGroup sb goal k)),
        takeBlock fs (slotGroup sb goal k) i)
  | failed {e : Errno}
      (look : lookInGroup fs (slotGroup sb goal k) (slotFind sb goal unaligned k) = .error e) :
      SlotOutcome unaligned fs goal k (.error e, fs)

theorem SlotOutcome.not_passes {unaligned : Bool} {goal k : ℕ} {out : Except Errno ℕ × Fs sb}
    (h : fs.Consistent) (hout : SlotOutcome unaligned fs goal k out) : ¬ fs.PassesSlot goal k := by
  intro hpass
  have hlook := (lookInGroup_none_iff (slotFind_spec unaligned h goal k)).mpr hpass
  cases hout with
  | found look =>
      rw [look] at hlook
      cases hlook
  | failed look =>
      rw [look] at hlook
      cases hlook

theorem tryGroups_cases (unaligned : Bool) (h : fs.Consistent) (goal count k : ℕ) :
    (∃ j < count, (∀ j' < j, fs.PassesSlot goal (k + 1 + j')) ∧
      SlotOutcome unaligned fs goal (k + 1 + j)
        (tryGroups unaligned fs count (slotGroup sb goal (k + 1)))) ∨
    ((∀ j < count, fs.PassesSlot goal (k + 1 + j)) ∧
      tryGroups unaligned fs count (slotGroup sb goal (k + 1)) = (.error Errno.ENOSPC, fs)) := by
  induction count generalizing k with
  | zero => exact Or.inr ⟨nofun, rfl⟩
  | succ count ih =>
      have hspec := slotFind_spec unaligned h goal (k + 1)
      have hfind : slotFind sb goal unaligned (k + 1)
          = findInGroup unaligned sb (slotGroup sb goal (k + 1)) := if_neg (Nat.succ_ne_zero k)
      rw [tryGroups, ← hfind, slotGroup_succ]
      cases hlook : lookInGroup fs (slotGroup sb goal (k + 1)) (slotFind sb goal unaligned (k + 1))
        with
      | error e => exact Or.inl ⟨0, by omega, nofun, .failed hlook⟩
      | ok res =>
          cases res with
          | some i => exact Or.inl ⟨0, by omega, nofun, .found hlook⟩
          | none =>
              -- the slot passes: the rest of the loop is that of the next one
              have hpass : fs.PassesSlot goal (k + 1) := (lookInGroup_none_iff hspec).mp hlook
              have hshift : ∀ j, k + 1 + (j + 1) = k + 1 + 1 + j := fun j => by omega
              dsimp only
              rcases ih (k + 1) with ⟨j, hj, hbefore, hout⟩ | ⟨hall, henospc⟩
              · refine Or.inl ⟨j + 1, by omega, fun j' hj' => ?_, ?_⟩
                · cases j' with
                  | zero => exact hpass
                  | succ j' =>
                      rw [hshift]
                      exact hbefore j' (by omega)
                · rw [hshift]
                  exact hout
              · refine Or.inr ⟨fun j hj => ?_, henospc⟩
                cases j with
                | zero => exact hpass
                | succ j =>
                    rw [hshift]
                    exact hall j (by omega)

/-- **The outcome of an allocation is that of the slot the search stops at**, and `ENOSPC` if every
    slot passes. -/
theorem alloc_cases (unaligned : Bool) (h : fs.Consistent) (goal : ℕ) :
    (∃ k ≤ ext4BlockGroupCnt sb, fs.Stops goal k ∧
      SlotOutcome unaligned fs goal k (ext4BallocAllocBlock unaligned fs goal)) ∨
    ((∀ k ≤ ext4BlockGroupCnt sb, fs.PassesSlot goal k) ∧
      ext4BallocAllocBlock unaligned fs goal = (.error Errno.ENOSPC, fs)) := by
  have hspec := slotFind_spec unaligned h goal 0
  have hfind : slotFind sb goal unaligned 0 = findNearGoal unaligned sb (slotGroup sb goal 0)
      (goalIndex sb (clampGoal sb goal)) := if_pos rfl
  unfold ext4BallocAllocBlock
  dsimp only
  rw [← (slotGroup_zero sb goal).1, ← hfind, slotGroup_succ]
  cases hlook : lookInGroup fs (slotGroup sb goal 0) (slotFind sb goal unaligned 0) with
  | error e =>
      have hout : SlotOutcome unaligned fs goal 0 (.error e, fs) := .failed hlook
      exact Or.inl ⟨0, by omega, ⟨nofun, hout.not_passes h⟩, hout⟩
  | ok res =>
      cases res with
      | some i =>
          have hout := SlotOutcome.found hlook
          exact Or.inl ⟨0, by omega, ⟨nofun, hout.not_passes h⟩, hout⟩
      | none =>
          have hpass : fs.PassesSlot goal 0 := (lookInGroup_none_iff hspec).mp hlook
          have hshift : ∀ k, k + 1 = 0 + 1 + k := fun k => by omega
          dsimp only
          rcases tryGroups_cases unaligned h goal (ext4BlockGroupCnt sb) 0
            with ⟨j, hj, hbefore, hout⟩ | ⟨hall, henospc⟩
          · refine Or.inl ⟨0 + 1 + j, by omega, ⟨fun k hk => ?_, hout.not_passes h⟩, hout⟩
            cases k with
            | zero => exact hpass
            | succ k =>
                rw [hshift]
                exact hbefore k (by omega)
          · refine Or.inr ⟨fun k hk => ?_, henospc⟩
            cases k with
            | zero => exact hpass
            | succ k =>
                rw [hshift]
                exact hall k (by omega)

end Ext4

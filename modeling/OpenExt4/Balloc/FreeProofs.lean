import OpenExt4.Balloc.AllocProofs

set_option autoImplicit false

/-! # What a free does

One turn of a free clears a window of a group's bitmap (`giveBlocks`). Where the window is one of
allocated blocks of the group the accounts stay true, and the turns of a range add up
(`Freed.trans`). Where it is not, the counts are given more than there are bits cleared, and no
later turn makes up for that (`freeGroups_deficit`). -/

namespace Ext4

open Bytes

variable {sb : Sb}

/-! ## The property -/

/-- The block of bit `i` of group `g` is one of `count` from `first` on. -/
def Sb.InRange (sb : Sb) (first count g i : ℕ) : Prop :=
  g < sb.groups ∧ i < sb.realBlocks g ∧ first ≤ sb.blockAt g i ∧ sb.blockAt g i < first + count

instance (first count g i : ℕ) : Decidable (sb.InRange first count g i) :=
  inferInstanceAs (Decidable (_ ∧ _))

/-- How many of the blocks of a range are in group `g`. -/
def Sb.share (sb : Sb) (first count g : ℕ) : ℕ :=
  ((Finset.range (sb.realBlocks g)).filter fun i => sb.InRange first count g i).card

/-- A range has been freed: its bits and no others are cleared, and each group, the superblock and
    the inode are credited by their share. -/
structure Freed (fs fs' : Fs sb) (first count : ℕ) : Prop where
  bits : ∀ g i, bit (fs'.groups g).bitmap i
    = (bit (fs.groups g).bitmap i && !decide (sb.InRange first count g i))
  group : ∀ g, (fs'.groups g).freeBlocks = (fs.groups g).freeBlocks + sb.share first count g
  total : fs'.freeBlocks = fs.freeBlocks + count
  inode : ext4InodeGetBlocksCount sb fs'.inode + count * inodeUnits sb
    = ext4InodeGetBlocksCount sb fs.inode

/-! ## Ranges -/

section Ranges

variable {first c₁ c₂ g i : ℕ}

theorem Sb.InRange.split : sb.InRange first (c₁ + c₂) g i ↔
    sb.InRange first c₁ g i ∨ sb.InRange (first + c₁) c₂ g i := by
  unfold InRange
  omega

theorem Sb.InRange.disjoint (h₁ : sb.InRange first c₁ g i) (h₂ : sb.InRange (first + c₁) c₂ g i) :
    False := by
  unfold InRange at h₁ h₂
  omega

theorem Sb.share_add (sb : Sb) (first c₁ c₂ g : ℕ) :
    sb.share first (c₁ + c₂) g = sb.share first c₁ g + sb.share (first + c₁) c₂ g := by
  unfold share
  rw [← Finset.card_union_of_disjoint]
  · congr 1
    ext i
    rw [Finset.mem_union, Finset.mem_filter, Finset.mem_filter, Finset.mem_filter, InRange.split,
      and_or_left]
  · rw [Finset.disjoint_left]
    intro i h₁ h₂
    exact (Finset.mem_filter.mp h₁).2.disjoint (Finset.mem_filter.mp h₂).2

theorem Sb.share_eq_zero (h : ∀ i, ¬ sb.InRange first c₁ g i) : sb.share first c₁ g = 0 := by
  unfold share
  rw [Finset.card_eq_zero, Finset.filter_eq_empty_iff]
  exact fun i _ => h i

/-- The bits of a range within one group. -/
theorem Sb.inRange_window {idx cnt : ℕ} (hg : g < sb.groups) (hfit : idx + cnt ≤ sb.realBlocks g)
    (g' i : ℕ) : sb.InRange (sb.blockAt g idx) cnt g' i ↔ g' = g ∧ idx ≤ i ∧ i < idx + cnt := by
  constructor
  · rintro ⟨-, hi, hlo, hhi⟩
    -- the block is one of the group's, and a block is in one group only
    have hblock : sb.blockAt g' i
        = sb.blockAt g (sb.blockAt g' i - sb.blockAt g idx + idx) := by
      unfold blockAt at *
      omega
    have hin : sb.blockAt g' i - sb.blockAt g idx + idx < sb.realBlocks g := by
      omega
    have hleft := sb.blockAt_index hi
    rw [hblock] at hleft
    have hright := sb.blockAt_index hin
    have hsame : g' = g := hleft.2.1.symm.trans hright.2.1
    subst hsame
    unfold blockAt at hlo hhi
    omega
  · rintro ⟨rfl, hlo, hhi⟩
    refine ⟨hg, by omega, ?_, ?_⟩ <;> unfold blockAt <;> omega

theorem Sb.share_window {idx cnt : ℕ} (hg : g < sb.groups) (hfit : idx + cnt ≤ sb.realBlocks g)
    (g' : ℕ) : sb.share (sb.blockAt g idx) cnt g' = if g' = g then cnt else 0 := by
  split
  · next heq =>
      subst heq
      have hset : (Finset.range (sb.realBlocks g')).filter
          (fun i => sb.InRange (sb.blockAt g' idx) cnt g' i) = Finset.Ico idx (idx + cnt) := by
        ext i
        rw [Finset.mem_filter, Finset.mem_range, Finset.mem_Ico, sb.inRange_window hg hfit]
        omega
      unfold share
      rw [hset, Nat.card_Ico, Nat.add_sub_cancel_left]
  · next hne => exact sb.share_eq_zero fun i hin => hne ((sb.inRange_window hg hfit g' i).mp hin).1

end Ranges

/-- Freeing a range and then the one behind it is freeing both. -/
theorem Freed.trans {fs fs' fs'' : Fs sb} {first c₁ c₂ : ℕ} (h₁ : Freed fs fs' first c₁)
    (h₂ : Freed fs' fs'' (first + c₁) c₂) : Freed fs fs'' first (c₁ + c₂) where
  bits g i := by
    rw [h₂.bits, h₁.bits, Bool.and_assoc, ← Bool.not_or, ← Bool.decide_or]
    congr 2
    exact decide_eq_decide.mpr Sb.InRange.split.symm
  group g := by
    rw [h₂.group, h₁.group, sb.share_add]
    omega
  total := by
    rw [h₂.total, h₁.total]
    omega
  inode := by
    have hsum : (c₁ + c₂) * inodeUnits sb = c₁ * inodeUnits sb + c₂ * inodeUnits sb :=
      Nat.add_mul ..
    have h := h₁.inode
    rw [← h₂.inode] at h
    omega

/-! ## One turn -/

/-- `bmap` is `old` with `cnt` bits from `idx` on cleared. -/
def ClearedBits {n : ℕ} (old bmap : Buf n) (idx cnt : ℕ) : Prop :=
  ∀ i, bit bmap i = (bit old i && !decide (idx ≤ i ∧ i < idx + cnt))

section Turn

variable {fs : Fs sb} {g idx cnt : ℕ} {bmap : Buf sb.blockSize}

theorem bit_giveBlocks (hbits : ClearedBits (fs.groups g).bitmap bmap idx cnt) (g' i : ℕ) :
    bit ((giveBlocks fs g bmap cnt).groups g').bitmap i
      = (bit (fs.groups g').bitmap i && !decide (g' = g ∧ idx ≤ i ∧ i < idx + cnt)) := by
  rw [giveBlocks_groups]
  by_cases hg' : g' = g
  · subst hg'
    rw [Fs.setGroup_self]
    dsimp only
    rw [hbits]
    simp
  · rw [Fs.setGroup_of_ne _ _ _ _ hg']
    simp [hg']

theorem giveBlocks_readErr (fs : Fs sb) (g : ℕ) (bmap : Buf sb.blockSize) (cnt g' : ℕ) :
    ((giveBlocks fs g bmap cnt).groups g').readErr = (fs.groups g').readErr := setGroup_readErr ..

theorem clear_giveBlocks_of_ne (fs : Fs sb) (bmap : Buf sb.blockSize) (cnt : ℕ) {g' : ℕ}
    (h : g' ≠ g) : (giveBlocks fs g bmap cnt).clear g' = fs.clear g' :=
  Fs.clear_of_bitmap (by rw [giveBlocks_groups, Fs.setGroup_of_ne _ _ _ _ h])

theorem clear_giveBlocks_self (fs : Fs sb) (g : ℕ) (bmap : Buf sb.blockSize) (cnt : ℕ) :
    (giveBlocks fs g bmap cnt).clear g = clearBits bmap (sb.realBlocks g) := by
  unfold Fs.clear
  rw [giveBlocks_groups, Fs.setGroup_self]

theorem sum_giveBlocks (fs : Fs sb) (bmap : Buf sb.blockSize) (cnt : ℕ) (hg : g < sb.groups) :
    (∑ k ∈ Finset.range sb.groups, (giveBlocks fs g bmap cnt).clear k) + fs.clear g
      = (∑ k ∈ Finset.range sb.groups, fs.clear k) + clearBits bmap (sb.realBlocks g) := by
  rw [← clear_giveBlocks_self fs g bmap cnt]
  exact Fs.sum_clear hg fun g' _ hne => clear_giveBlocks_of_ne fs bmap cnt hne

/-- The window is one of allocated blocks of group `g`, its count has room for them and the inode
    has been charged for them. -/
structure TurnOk (fs : Fs sb) (g idx cnt : ℕ) : Prop where
  group : g < sb.groups
  fits : idx + cnt ≤ sb.realBlocks g
  set : ∀ i, idx ≤ i → i < idx + cnt → bit (fs.groups g).bitmap i = true
  room : fs.clear g + cnt < freeCountRoom sb
  inode : cnt * inodeUnits sb ≤ ext4InodeGetBlocksCount sb fs.inode

theorem TurnOk.clear (h : TurnOk fs g idx cnt)
    (hbits : ClearedBits (fs.groups g).bitmap bmap idx cnt) :
    (giveBlocks fs g bmap cnt).clear g = fs.clear g + cnt := by
  rw [clear_giveBlocks_self]
  exact clearBits_of_cleared h.fits h.set fun i _ => hbits i

theorem TurnOk.freeBlocks (h : TurnOk fs g idx cnt) (hfs : fs.Consistent) (g' : ℕ) :
    ((giveBlocks fs g bmap cnt).groups g').freeBlocks
      = (fs.groups g').freeBlocks + if g' = g then cnt else 0 := by
  rw [giveBlocks_groups]
  split
  · next heq =>
      subst heq
      have hroom := h.room
      rw [← hfs.group g' h.group] at hroom
      rw [Fs.setGroup_self]
      exact storedCount_eq hroom
  · next hne => rw [Fs.setGroup_of_ne _ _ _ _ hne, Nat.add_zero]

/-- What the inode is charged less it can hold. -/
theorem blocksFit_sub {inode : InodeBlocks} (hwf : inode.Wf) (k : ℕ) :
    BlocksFit sb (ext4InodeGetBlocksCount sb inode - k * inodeUnits sb) := by
  have hlo := hwf.lo
  have hhigh := hwf.high
  have hshift := (hugeShift_eq sb).1
  have hle := (hugeShift_eq sb).2
  have hpow : 2 ^ hugeShift sb ≤ 2 ^ 7 := Nat.pow_le_pow_right (by decide) hle
  have hunits : inodeUnits sb = 2 ^ hugeShift sb := hshift.symm
  have hpos : 0 < 2 ^ hugeShift sb := Nat.two_pow_pos _
  unfold ext4InodeGetBlocksCount BlocksFit at *
  rw [hunits] at *
  generalize 2 ^ hugeShift sb = m at *
  dsimp only at *
  cases hhuge : sb.hugeFile with
  | false =>
      simp only [Bool.false_eq_true, if_false]
      exact Or.inl (by omega)
  | true =>
      simp only [if_true]
      have hcnt : inode.blocksCountLo + inode.blocksHigh * 2 ^ 32 < 2 ^ 48 := by omega
      generalize inode.blocksCountLo + inode.blocksHigh * 2 ^ 32 = c at *
      cases hflag : inode.hugeFile with
      | false =>
          simp only [Bool.false_eq_true, if_false]
          exact Or.inr ⟨trivial, Or.inl (by omega)⟩
      | true =>
          -- the count is one of blocks, and so is what is left of it
          simp only [if_true]
          have hcm : c * m ≤ 2 ^ 48 * 2 ^ 7 := Nat.mul_le_mul (by omega) hpow
          rw [Nat.mod_eq_of_lt (by omega), ← Nat.sub_mul]
          refine Or.inr ⟨trivial, Or.inr ⟨Nat.mul_mod_left .., ?_⟩⟩
          rw [Nat.mul_div_cancel _ hpos]
          omega

theorem TurnOk.giveBlocks_inode (h : TurnOk fs g idx cnt) (hfs : fs.Consistent) :
    ext4InodeGetBlocksCount sb (giveBlocks fs g bmap cnt).inode + cnt * inodeUnits sb
      = ext4InodeGetBlocksCount sb fs.inode := by
  have hle := h.inode
  have hlt := @getBlocksCount_lt sb _ hfs.inode
  have hwrap : (ext4InodeGetBlocksCount sb fs.inode + (2 ^ 64 - cnt * inodeUnits sb)) % 2 ^ 64
      = ext4InodeGetBlocksCount sb fs.inode - cnt * inodeUnits sb := by omega
  have hread := (@getBlocksCount_set_iff sb _ hfs.inode _).mpr (blocksFit_sub hfs.inode cnt)
  unfold giveBlocks
  dsimp only
  rw [hwrap, hread]
  omega

/-- **A turn on allocated blocks of a group frees them.** -/
theorem TurnOk.freed (h : TurnOk fs g idx cnt) (hfs : fs.Consistent)
    (hbits : ClearedBits (fs.groups g).bitmap bmap idx cnt) :
    Freed fs (giveBlocks fs g bmap cnt) (sb.blockAt g idx) cnt where
  bits g' i := by
    rw [bit_giveBlocks hbits]
    congr 2
    exact decide_eq_decide.mpr (sb.inRange_window h.group h.fits g' i).symm
  group g' := by rw [h.freeBlocks hfs, sb.share_window h.group h.fits]
  total := by
    have htotal := hfs.total
    have hlt := fs.sum_clear_lt
    have hroom := h.room
    have hle := freeCountRoom_le sb
    exact Nat.mod_eq_of_lt (by omega)
  inode := h.giveBlocks_inode hfs

theorem TurnOk.consistent (h : TurnOk fs g idx cnt) (hfs : fs.Consistent)
    (hbits : ClearedBits (fs.groups g).bitmap bmap idx cnt) :
    (giveBlocks fs g bmap cnt).Consistent where
  readable g' hg' := by
    rw [giveBlocks_readErr]
    exact hfs.readable g' hg'
  padding g' hg' i hlo hhi := by
    have hfits := h.fits
    rw [bit_giveBlocks hbits, hfs.padding g' hg' i hlo hhi, Bool.true_and]
    simp only [Bool.not_eq_true', decide_eq_false_iff_not]
    rintro ⟨rfl, -, hlt⟩
    omega
  group g' hg' := by
    rw [h.freeBlocks hfs, hfs.group g' hg']
    split
    · next heq =>
        subst heq
        exact (h.clear hbits).symm
    · next hne => rw [clear_giveBlocks_of_ne _ _ _ hne, Nat.add_zero]
  group_room g' hg' := by
    by_cases hne : g' = g
    · subst hne
      rw [h.clear hbits]
      exact h.room
    · rw [clear_giveBlocks_of_ne _ _ _ hne]
      exact hfs.group_room g' hg'
  total := by
    have hsum := sum_giveBlocks fs bmap cnt h.group
    rw [← clear_giveBlocks_self fs g bmap cnt, h.clear hbits] at hsum
    have htotal := (h.freed hfs hbits).total
    rw [hfs.total] at htotal
    omega
  inode := setBlocksCount_wf hfs.inode _

end Turn

/-! ## The loop over the groups -/

section Loop

variable {fs : Fs sb} {first count bgid turns : ℕ} {unaligned : Bool}

theorem Sb.indexOf_lt (sb : Sb) (b : ℕ) : sb.indexOf b < sb.blocksPerGroup :=
  Nat.mod_lt _ sb.blocksPerGroup_pos

/-- A block behind the end of a group is in a later one. -/
theorem Sb.HasBlock.groupOf_add {b k : ℕ} (h : sb.HasBlock b)
    (hk : sb.blocksPerGroup ≤ sb.indexOf b + k) : sb.groupOf b + 1 ≤ sb.groupOf (b + k) := by
  have hb := h.index.2.2
  unfold blockAt at hb
  rw [Nat.mul_comm] at hb
  conv_rhs => unfold groupOf
  rw [Nat.le_div_iff_mul_le sb.blocksPerGroup_pos, Nat.add_mul, Nat.one_mul]
  omega

/-- The first block of the next group. -/
theorem Sb.HasBlock.groupOf_next {b k : ℕ} (h : sb.HasBlock b)
    (hk : sb.indexOf b + k = sb.blocksPerGroup) : sb.groupOf (b + k) = sb.groupOf b + 1 := by
  have hb := h.index.2.2
  unfold blockAt at hb
  have hsub : b + k - sb.firstDataBlock = sb.blocksPerGroup * (sb.groupOf b + 1) := by
    rw [Nat.mul_add, Nat.mul_one]
    omega
  conv_lhs => unfold groupOf
  rw [hsub, Nat.mul_div_cancel_left _ sb.blocksPerGroup_pos]

theorem Sb.groupOf_mono {b b' : ℕ} (h : b ≤ b') : sb.groupOf b ≤ sb.groupOf b' :=
  Nat.div_le_div_right (by omega)

/-- The range inside the volume. -/
def Sb.Inside (sb : Sb) (first count : ℕ) : Prop :=
  count = 0 ∨ sb.firstDataBlock ≤ first ∧ first + count ≤ sb.blocksCount

instance (first count : ℕ) : Decidable (sb.Inside first count) :=
  inferInstanceAs (Decidable (_ ∨ _))

theorem turnCnt_le (sb : Sb) (first count : ℕ) : turnCnt sb first count ≤ count := min_le_left ..

theorem clearedBits_turn (unaligned : Bool) (bmap : Buf sb.blockSize) (first count : ℕ) :
    ClearedBits bmap (bmapBitsFree unaligned bmap (ext4FsAddrToIdxBg sb first)
        (turnCnt sb first count)) (ext4FsAddrToIdxBg sb first) (turnCnt sb first count) := by
  have hidx : ext4FsAddrToIdxBg sb first < sb.blocksPerGroup := Nat.mod_lt _ sb.blocksPerGroup_pos
  have := sb.blocksPerGroup_le_bits
  unfold turnCnt
  exact fun i => bit_bmapBitsFree (by omega) i

theorem freeTurn_readErr (unaligned : Bool) (fs : Fs sb) (bgid first count g : ℕ) :
    ((freeTurn unaligned fs bgid first count).groups g).readErr = (fs.groups g).readErr :=
  giveBlocks_readErr ..

theorem freeTurn_freeBlocks (unaligned : Bool) (fs : Fs sb) (bgid first count : ℕ) :
    (freeTurn unaligned fs bgid first count).freeBlocks
      = (fs.freeBlocks + turnCnt sb first count) % 2 ^ 64 := rfl

/-- A turn credits at least the bits it clears, and more than those if a bit of the window was
    clear or is behind the group. -/
theorem sum_freeTurn_le (hg : bgid < sb.groups) :
    ∑ k ∈ Finset.range sb.groups, (freeTurn unaligned fs bgid first count).clear k
      ≤ (∑ k ∈ Finset.range sb.groups, fs.clear k) + turnCnt sb first count := by
  have hbits := clearedBits_turn unaligned (fs.groups bgid).bitmap first count
  have hle := clearBits_le_of_cleared (m := sb.realBlocks bgid) hbits
  have hclear : fs.clear bgid = clearBits (fs.groups bgid).bitmap (sb.realBlocks bgid) := rfl
  have hsum := sum_giveBlocks fs (bmapBitsFree unaligned (fs.groups bgid).bitmap
    (ext4FsAddrToIdxBg sb first) (turnCnt sb first count)) (turnCnt sb first count) hg
  unfold freeTurn
  omega

theorem sum_freeTurn_lt {j : ℕ} (hg : bgid < sb.groups) (hlo : ext4FsAddrToIdxBg sb first ≤ j)
    (hhi : j < ext4FsAddrToIdxBg sb first + turnCnt sb first count)
    (hlost : sb.realBlocks bgid ≤ j ∨ bit (fs.groups bgid).bitmap j = false) :
    ∑ k ∈ Finset.range sb.groups, (freeTurn unaligned fs bgid first count).clear k
      < (∑ k ∈ Finset.range sb.groups, fs.clear k) + turnCnt sb first count := by
  have hbits := clearedBits_turn unaligned (fs.groups bgid).bitmap first count
  have hlt := clearBits_lt_of_cleared (m := sb.realBlocks bgid) hbits ⟨hlo, hhi⟩ hlost
  have hclear : fs.clear bgid = clearBits (fs.groups bgid).bitmap (sb.realBlocks bgid) := rfl
  have hsum := sum_giveBlocks fs (bmapBitsFree unaligned (fs.groups bgid).bitmap
    (ext4FsAddrToIdxBg sb first) (turnCnt sb first count)) (turnCnt sb first count) hg
  unfold freeTurn
  omega

theorem freeGroups_succ (hread : (fs.groups bgid).readErr = none) :
    freeGroups unaligned (turns + 1) bgid first count fs
      = freeGroups unaligned turns (bgid + 1) (first + turnCnt sb first count)
          (count - turnCnt sb first count) (freeTurn unaligned fs bgid first count) := by
  rw [freeGroups, hread]

/-- What is left of a range when the loop is at group `bgid` with `turns` to go. -/
def Ahead (sb : Sb) (turns bgid first count : ℕ) : Prop :=
  count = 0 ∨ sb.firstDataBlock ≤ first ∧ first + count ≤ sb.blocksCount ∧
    bgid ≤ sb.groupOf first ∧ sb.groupOf (first + count - 1) < bgid + turns

theorem Ahead.next (h : Ahead sb (turns + 1) bgid first count) :
    Ahead sb turns (bgid + 1) (first + turnCnt sb first count)
      (count - turnCnt sb first count) := by
  have hle := turnCnt_le sb first count
  rcases h with hzero | ⟨hlo, hhi, hbgid, hlast⟩
  · exact Or.inl (by omega)
  · by_cases hdone : turnCnt sb first count = count
    · exact Or.inl (by omega)
    · have hblock : sb.HasBlock first := ⟨hlo, by omega⟩
      have hbits := sb.blocksPerGroup_le_bits
      have hidx := sb.indexOf_lt first
      have hend : sb.indexOf first + turnCnt sb first count = 8 * sb.blockSize := by
        unfold turnCnt at *
        rw [ext4FsAddrToIdxBg_eq hblock] at *
        omega
      have hgroup := hblock.groupOf_add (k := turnCnt sb first count) (by omega)
      refine Or.inr ⟨by omega, by omega, by omega, ?_⟩
      rw [show first + turnCnt sb first count + (count - turnCnt sb first count) - 1
        = first + count - 1 by omega]
      omega

/-- The loop comes to its end and credits the superblock the whole range, at least as much as it
    clears. -/
theorem freeGroups_credit (hread : ∀ g < sb.groups, (fs.groups g).readErr = none)
    (hgroups : bgid + turns ≤ sb.groups) (hahead : Ahead sb turns bgid first count)
    (hsb : fs.freeBlocks < 2 ^ 64) :
    ∃ fs', freeGroups unaligned turns bgid first count fs = (.ok (), fs') ∧
      fs'.freeBlocks = (fs.freeBlocks + count) % 2 ^ 64 ∧
      ∑ k ∈ Finset.range sb.groups, fs'.clear k
        ≤ (∑ k ∈ Finset.range sb.groups, fs.clear k) + count := by
  induction turns generalizing bgid first count fs with
  | zero =>
      obtain rfl : count = 0 := by
        by_contra hpos
        obtain ⟨-, -, hbgid, hlast⟩ := hahead.resolve_left hpos
        have := sb.groupOf_mono (show first ≤ first + count - 1 by omega)
        omega
      exact ⟨fs, rfl, (Nat.mod_eq_of_lt hsb).symm, by omega⟩
  | succ turns ih =>
      have hle := turnCnt_le sb first count
      have hturn := @sum_freeTurn_le sb fs first count bgid unaligned (by omega)
      have hnew := freeTurn_freeBlocks unaligned fs bgid first count
      obtain ⟨fs', hrun, htotal, hsum⟩ := @ih (freeTurn unaligned fs bgid first count) _ _ _
        (fun g hg => by rw [freeTurn_readErr]; exact hread g hg) (by omega) hahead.next (by omega)
      rw [freeGroups_succ (hread bgid (by omega))]
      exact ⟨fs', hrun, by omega, by omega⟩

/-! ## Turns that keep to their groups -/

/-- A block of the same group. -/
theorem Sb.HasBlock.add_within {b k : ℕ} (h : sb.HasBlock b)
    (hk : sb.indexOf b + k < sb.blocksPerGroup) :
    sb.groupOf (b + k) = sb.groupOf b ∧ sb.indexOf (b + k) = sb.indexOf b + k := by
  have hb := h.index.2.2
  have hpos := sb.blocksPerGroup_pos
  unfold blockAt at hb
  have hsub : b + k - sb.firstDataBlock
      = sb.blocksPerGroup * sb.groupOf b + (sb.indexOf b + k) := by omega
  constructor
  · conv_lhs => unfold groupOf
    rw [hsub, Nat.mul_add_div hpos, Nat.div_eq_of_lt hk, Nat.add_zero]
  · conv_lhs => unfold indexOf
    rw [hsub, Nat.mul_add_mod, Nat.mod_eq_of_lt hk]

/-- The loop is at the group of the first block that is left, with a turn for each group to the
    last. -/
def Aligned (sb : Sb) (turns bgid first count : ℕ) : Prop :=
  count = 0 ∧ turns = 0 ∨ 0 < count ∧ sb.firstDataBlock ≤ first ∧ first + count ≤ sb.blocksCount ∧
    bgid = sb.groupOf first ∧ sb.groupOf (first + count - 1) + 1 = bgid + turns

/-- Freeing to the end of the bitmap block is freeing to the end of the group. -/
def Capped (sb : Sb) (first count : ℕ) : Prop :=
  sb.blocksPerGroup = 8 * sb.blockSize ∨ sb.indexOf first + count ≤ sb.blocksPerGroup

instance (first count : ℕ) : Decidable (Capped sb first count) :=
  inferInstanceAs (Decidable (_ ∨ _))

theorem Aligned.ahead (h : Aligned sb turns bgid first count) :
    Ahead sb turns bgid first count := by
  rcases h with ⟨hzero, -⟩ | ⟨-, hlo, hhi, hbgid, hlast⟩
  · exact Or.inl hzero
  · exact Or.inr ⟨hlo, hhi, hbgid.le, by omega⟩

theorem Aligned.hasBlock (h : Aligned sb (turns + 1) bgid first count) :
    0 < count ∧ sb.HasBlock first ∧ first + count ≤ sb.blocksCount ∧ bgid = sb.groupOf first := by
  rcases h with ⟨-, hturns⟩ | ⟨hpos, hlo, hhi, hbgid, -⟩
  · cases hturns
  · exact ⟨hpos, ⟨hlo, by omega⟩, hhi, hbgid⟩

/-- What a turn of a capped range frees. -/
theorem Capped.turnCnt_eq (h : Capped sb first count) (hblock : sb.HasBlock first) :
    turnCnt sb first count = min count (sb.blocksPerGroup - sb.indexOf first) := by
  unfold turnCnt
  rw [ext4FsAddrToIdxBg_eq hblock]
  unfold Capped at h
  have := sb.blocksPerGroup_le_bits
  omega

theorem Aligned.next (h : Aligned sb (turns + 1) bgid first count) (hcap : Capped sb first count) :
    Aligned sb turns (bgid + 1) (first + turnCnt sb first count)
      (count - turnCnt sb first count) := by
  obtain ⟨hpos, hblock, hhi, hbgid⟩ := h.hasBlock
  have hcnt := hcap.turnCnt_eq hblock
  obtain ⟨-, hturns⟩ | ⟨-, -, -, -, hlast⟩ := h
  · cases hturns
  · have hidx := sb.indexOf_lt first
    by_cases hdone : count ≤ sb.blocksPerGroup - sb.indexOf first
    · have hsame := (hblock.add_within (k := count - 1) (by omega)).1
      rw [show first + (count - 1) = first + count - 1 by omega] at hsame
      exact Or.inl ⟨by omega, by omega⟩
    · have hnext := hblock.groupOf_next (k := turnCnt sb first count) (by omega)
      have hlo := hblock.1
      refine Or.inr ⟨by omega, by omega, by omega, by omega, ?_⟩
      rw [show first + turnCnt sb first count + (count - turnCnt sb first count) - 1
        = first + count - 1 by omega]
      omega

/-- A later turn is capped as well. -/
theorem Capped.next (h : Capped sb first count) (hblock : sb.HasBlock first) :
    Capped sb (first + turnCnt sb first count) (count - turnCnt sb first count) := by
  have hcnt := h.turnCnt_eq hblock
  rcases h with hfull | hone
  · exact Or.inl hfull
  · have := sb.indexOf_lt (first + turnCnt sb first count)
    exact Or.inr (by omega)

/-- **Where a turn goes past its group, or a block of the range was free, more is credited than is
    cleared.** -/
theorem freeGroups_deficit (hread : ∀ g < sb.groups, (fs.groups g).readErr = none)
    (hgroups : bgid + turns ≤ sb.groups) (halign : Aligned sb turns bgid first count)
    (hsb : fs.freeBlocks < 2 ^ 64) (hpos : 0 < count)
    (hlost : ¬ Capped sb first count ∨
      ∃ b, first ≤ b ∧ b < first + count ∧ fs.allocated b = false) :
    ∃ fs', freeGroups unaligned turns bgid first count fs = (.ok (), fs') ∧
      fs'.freeBlocks = (fs.freeBlocks + count) % 2 ^ 64 ∧
      ∑ k ∈ Finset.range sb.groups, fs'.clear k
        < (∑ k ∈ Finset.range sb.groups, fs.clear k) + count := by
  induction turns generalizing bgid first count fs with
  | zero =>
      rcases halign with ⟨hzero, -⟩ | ⟨-, hlo, hhi, rfl, hlast⟩
      · omega
      · have := sb.groupOf_mono (show first ≤ first + count - 1 by omega)
        omega
  | succ turns ih =>
      obtain ⟨-, hblock, hhi, hbgid⟩ := halign.hasBlock
      have hidx : ext4FsAddrToIdxBg sb first = sb.indexOf first := ext4FsAddrToIdxBg_eq hblock
      have hlt := sb.indexOf_lt first
      have hle := turnCnt_le sb first count
      have hnew := freeTurn_freeBlocks unaligned fs bgid first count
      have hread' : ∀ g < sb.groups,
          ((freeTurn unaligned fs bgid first count).groups g).readErr = none :=
        fun g hg => by rw [freeTurn_readErr]; exact hread g hg
      -- a bit lost in this turn is not made up for by the others
      have hhere : (∃ j, sb.indexOf first ≤ j ∧ j < sb.indexOf first + turnCnt sb first count ∧
          (sb.realBlocks bgid ≤ j ∨ bit (fs.groups bgid).bitmap j = false)) →
          ∃ fs', freeGroups unaligned turns (bgid + 1) (first + turnCnt sb first count)
              (count - turnCnt sb first count) (freeTurn unaligned fs bgid first count)
              = (.ok (), fs') ∧
            fs'.freeBlocks = (fs.freeBlocks + count) % 2 ^ 64 ∧
            ∑ k ∈ Finset.range sb.groups, fs'.clear k
              < (∑ k ∈ Finset.range sb.groups, fs.clear k) + count := by
        rintro ⟨j, hlo, hhi, hj⟩
        rw [← hidx] at hlo hhi
        have hturn := @sum_freeTurn_lt sb fs first count bgid unaligned j (by omega) hlo hhi hj
        obtain ⟨fs', hrun, htotal, hsum⟩ := @freeGroups_credit sb
          (freeTurn unaligned fs bgid first count) _ _ _ _ unaligned hread' (by omega)
          halign.ahead.next (by omega)
        exact ⟨fs', hrun, by omega, by omega⟩
      rw [freeGroups_succ (hread bgid (by omega))]
      by_cases hcap : Capped sb first count
      · obtain ⟨b, hb, hbhi, hfree⟩ := hlost.resolve_left (not_not.mpr hcap)
        have hcnt := hcap.turnCnt_eq hblock
        by_cases hnow : b < first + turnCnt sb first count
        · obtain ⟨hgroup, hindex⟩ := hblock.add_within (k := b - first) (by omega)
          rw [show first + (b - first) = b by omega] at hgroup hindex
          unfold Fs.allocated at hfree
          rw [hgroup, ← hbgid, hindex] at hfree
          exact hhere ⟨_, by omega, by omega, Or.inr hfree⟩
        · have hgroup := sb.groupOf_mono (show first + turnCnt sb first count ≤ b by omega)
          rw [hblock.groupOf_next (by omega)] at hgroup
          have hfree' : (freeTurn unaligned fs bgid first count).allocated b = false := by
            unfold Fs.allocated freeTurn at *
            rw [giveBlocks_groups, Fs.setGroup_of_ne _ _ _ _ (by omega)]
            exact hfree
          have hturn := @sum_freeTurn_le sb fs first count bgid unaligned (by omega)
          obtain ⟨fs', hrun, htotal, hsum⟩ := @ih (freeTurn unaligned fs bgid first count) _ _ _
            hread' (by omega) (halign.next hcap) (by omega) (by omega)
            (Or.inr ⟨b, by omega, by omega, hfree'⟩)
          exact ⟨fs', hrun, by omega, by omega⟩
      · -- the window goes on behind the last block of the group
        have hbpg := sb.blocksPerGroup_le_bits
        have hreal := sb.realBlocks_le bgid
        have hwide : sb.blocksPerGroup < sb.indexOf first + turnCnt sb first count := by
          unfold turnCnt
          rw [hidx]
          unfold Capped at hcap
          omega
        exact hhere ⟨sb.blocksPerGroup, by omega, hwide, Or.inl hreal⟩

theorem Freed.refl (fs : Fs sb) (first : ℕ) : Freed fs fs first 0 where
  bits g i := by
    have hout : ¬ sb.InRange first 0 g i := by
      unfold Sb.InRange
      omega
    rw [decide_eq_false hout, Bool.not_false, Bool.and_true]
  group g := by
    rw [sb.share_eq_zero fun i => by unfold Sb.InRange; omega, Nat.add_zero]
  total := rfl
  inode := by rw [Nat.zero_mul, Nat.add_zero]

/-- The turn of a capped range of allocated blocks. -/
theorem Aligned.turnOk (h : Aligned sb (turns + 1) bgid first count) (hcap : Capped sb first count)
    (hset : ∀ b, first ≤ b → b < first + count → fs.allocated b = true)
    (hroom : ∀ g < sb.groups, fs.clear g + sb.share first count g < freeCountRoom sb)
    (hinode : count * inodeUnits sb ≤ ext4InodeGetBlocksCount sb fs.inode) :
    TurnOk fs bgid (sb.indexOf first) (turnCnt sb first count) ∧
      sb.blockAt bgid (sb.indexOf first) = first := by
  obtain ⟨hpos, hblock, hhi, rfl⟩ := h.hasBlock
  obtain ⟨hg, -, hat⟩ := hblock.index
  have hcnt := hcap.turnCnt_eq hblock
  have hlt := sb.indexOf_lt first
  have hfits : sb.indexOf first + turnCnt sb first count ≤ sb.realBlocks (sb.groupOf first) := by
    unfold Sb.realBlocks
    unfold Sb.blockAt at hat
    rw [Nat.mul_comm] at hat
    omega
  refine ⟨⟨hg, hfits, fun i hlo hhi => ?_, ?_, ?_⟩, hat⟩
  · have hindex := sb.blockAt_index (show i < sb.realBlocks (sb.groupOf first) by omega)
    have hbit := hset (sb.blockAt (sb.groupOf first) i)
      (by unfold Sb.blockAt at *; omega) (by unfold Sb.blockAt at *; omega)
    unfold Fs.allocated at hbit
    rwa [hindex.2.1, hindex.2.2] at hbit
  · have hsplit := sb.share_add first (turnCnt sb first count) (count - turnCnt sb first count)
      (sb.groupOf first)
    have hwindow := sb.share_window hg hfits (sb.groupOf first)
    rw [hat, if_pos rfl] at hwindow
    rw [Nat.add_sub_of_le (turnCnt_le sb first count), hwindow] at hsplit
    have := hroom _ hg
    omega
  · exact (Nat.mul_le_mul_right _ (turnCnt_le sb first count)).trans hinode

/-- **A capped range of allocated blocks is freed**, if the counts have room for it. -/
theorem freeGroups_freed (hfs : fs.Consistent) (halign : Aligned sb turns bgid first count)
    (hcap : Capped sb first count)
    (hset : ∀ b, first ≤ b → b < first + count → fs.allocated b = true)
    (hroom : ∀ g < sb.groups, fs.clear g + sb.share first count g < freeCountRoom sb)
    (hinode : count * inodeUnits sb ≤ ext4InodeGetBlocksCount sb fs.inode) :
    ∃ fs', freeGroups unaligned turns bgid first count fs = (.ok (), fs') ∧ fs'.Consistent ∧
      Freed fs fs' first count := by
  induction turns generalizing bgid first count fs with
  | zero =>
      rcases halign with ⟨rfl, -⟩ | ⟨hpos, hlo, hhi, rfl, hlast⟩
      · exact ⟨fs, rfl, hfs, Freed.refl fs first⟩
      · have := sb.groupOf_mono (show first ≤ first + count - 1 by omega)
        omega
  | succ turns ih =>
      obtain ⟨hok, hat⟩ := halign.turnOk hcap hset hroom hinode
      obtain ⟨hpos, hblock, hhi, hbgid⟩ := halign.hasBlock
      have hbits := clearedBits_turn unaligned (fs.groups bgid).bitmap first count
      rw [ext4FsAddrToIdxBg_eq hblock] at hbits
      have hfreed : Freed fs (freeTurn unaligned fs bgid first count) first
          (turnCnt sb first count) := by
        have h := hok.freed hfs hbits
        rwa [hat, ← ext4FsAddrToIdxBg_eq hblock] at h
      have hfs' : (freeTurn unaligned fs bgid first count).Consistent := by
        have h := hok.consistent hfs hbits
        rwa [← ext4FsAddrToIdxBg_eq hblock] at h
      have hle := turnCnt_le sb first count
      have hsum : turnCnt sb first count + (count - turnCnt sb first count) = count := by omega
      have hunits : count * inodeUnits sb = turnCnt sb first count * inodeUnits sb
          + (count - turnCnt sb first count) * inodeUnits sb := by rw [← Nat.add_mul, hsum]
      rw [freeGroups_succ (hfs.readable bgid hok.group)]
      obtain ⟨fs'', hrun, hcons, hrest⟩ := @ih (freeTurn unaligned fs bgid first count) _ _ _ hfs'
        (halign.next hcap) (hcap.next hblock)
        (fun b hlo hhi => by
          have hin : ¬ sb.InRange first (turnCnt sb first count) (sb.groupOf b) (sb.indexOf b) := by
            rintro ⟨-, -, -, hlt⟩
            have hb : sb.HasBlock b := ⟨by have := hblock.1; omega, by omega⟩
            rw [hb.index.2.2] at hlt
            omega
          unfold Fs.allocated
          rw [hfreed.bits, decide_eq_false hin, Bool.not_false, Bool.and_true]
          exact hset b (by omega) (by omega))
        (fun g hg => by
          have hsplit := sb.share_add first (turnCnt sb first count)
            (count - turnCnt sb first count) g
          have hgroup := hfreed.group g
          rw [hsum] at hsplit
          rw [hfs'.group g hg, hfs.group g hg] at hgroup
          have := hroom g hg
          omega)
        (by have := hfreed.inode; omega)
      have hall := hfreed.trans hrest
      rw [hsum] at hall
      exact ⟨fs'', hrun, hcons, hall⟩

end Loop

end Ext4

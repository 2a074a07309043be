import Mathlib.Tactic.Push
import OpenExt4.Balloc.AllocProofs

set_option autoImplicit false

/-! # When an allocation is sound

An allocation is sound if it takes one free block of the volume and nothing else, or says `ENOSPC`
of a volume without one. The conversions of 32 bits, the group too many that is counted when the
boot block fills up the last group, and the unchecked store of the inode's block count each can
break that; `AllocCond` says of a state and a goal that none of them does. -/

namespace Ext4

open Bytes

variable {sb : Sb}

/-! ## The property -/

/-- Block `b` has been taken: it was a free block of the volume, its bit and no other is set, and
    it is off the count of its group, of the superblock and on that of the inode. -/
structure Taken (fs fs' : Fs sb) (b : ℕ) : Prop where
  block : sb.HasBlock b
  clear : fs.allocated b = false
  bits : ∀ g i, bit (fs'.groups g).bitmap i
    = (decide (g = sb.groupOf b ∧ i = sb.indexOf b) || bit (fs.groups g).bitmap i)
  group : ∀ g, (fs'.groups g).freeBlocks + (if g = sb.groupOf b then 1 else 0)
    = (fs.groups g).freeBlocks
  total : fs'.freeBlocks + 1 = fs.freeBlocks
  inode : ext4InodeGetBlocksCount sb fs'.inode = ext4InodeGetBlocksCount sb fs.inode + inodeUnits sb

/-- The outcome of an allocation is sound. -/
def SoundOutcome (fs : Fs sb) : Except Errno ℕ × Fs sb → Prop
  | (.ok b, fs') => Taken fs fs' b
  | (.error e, fs') => e = Errno.ENOSPC ∧ fs' = fs ∧
      ∀ g < sb.groups, ∀ i < sb.realBlocks g, bit (fs.groups g).bitmap i = true

/-! ## Its condition -/

/-- The inode can hold its block count with one block more. -/
def Fs.InodeHasRoom (fs : Fs sb) : Prop :=
  BlocksFit sb (ext4InodeGetBlocksCount sb fs.inode + inodeUnits sb)

/-- The slot the search stops at is a group of the volume, its first clear bit from where it is
    searched has an address of 32 bits and the inode has room for the block; or every slot passes,
    and no block is free. -/
def AllocCond (fs : Fs sb) (goal : ℕ) : Prop :=
  (∃ k ≤ ext4BlockGroupCnt sb, fs.Stops goal k ∧ slotGroup sb goal k < sb.groups ∧
    ∃ i, FirstClear (fs.groups (slotGroup sb goal k)).bitmap (slotFrom sb goal k)
      (sb.realBlocks (slotGroup sb goal k)) (some i) ∧
      sb.blockAt (slotGroup sb goal k) i < 2 ^ 32 ∧ fs.InodeHasRoom) ∨
  ((∀ k ≤ ext4BlockGroupCnt sb, fs.PassesSlot goal k) ∧ ∀ g < sb.groups, fs.clear g = 0)

/-! ## Taking the block of a bit -/

section Taken

variable {fs : Fs sb} {g i b : ℕ}

/-- The block that is taken is that of the bit that is set. -/
theorem Taken.index (h : Taken fs (takeBlock fs g i) b) (hi : i < 8 * sb.blockSize) :
    g = sb.groupOf b ∧ i = sb.indexOf b := by
  have hclear := h.clear
  have hbit := h.bits (sb.groupOf b) (sb.indexOf b)
  unfold Fs.allocated at hclear
  rw [bit_takeBlock fs hi, hclear, Bool.or_false, Bool.or_false, decide_eq_decide] at hbit
  exact (hbit.mpr ⟨rfl, rfl⟩).imp Eq.symm Eq.symm

theorem takeBlock_taken_iff (h : fs.Consistent) (hg : g < sb.groups) (hi : i < sb.realBlocks g)
    (hclear : bit (fs.groups g).bitmap i = false) :
    Taken fs (takeBlock fs g i) b ↔ b = sb.blockAt g i ∧ fs.InodeHasRoom := by
  obtain ⟨hblock, hgroup, hindex⟩ := Sb.blockAt_index hi
  have hlt := @getBlocksCount_lt sb _ h.inode
  have hunits := inodeUnits_le sb
  have hinode : (takeBlock fs g i).inode = ext4InodeSetBlocksCount sb fs.inode
      (ext4InodeGetBlocksCount sb fs.inode + inodeUnits sb) := by
    have hwrap : ext4InodeGetBlocksCount sb fs.inode + inodeUnits sb < 2 ^ 64 := by omega
    exact congrArg (ext4InodeSetBlocksCount sb fs.inode) (Nat.mod_eq_of_lt hwrap)
  constructor
  · intro htaken
    obtain ⟨hg', hi'⟩ := htaken.index (Sb.lt_bits hi)
    refine ⟨?_, ?_⟩
    · rw [hg', hi', htaken.block.index.2.2]
    · have hread := htaken.inode
      rw [hinode] at hread
      exact (getBlocksCount_set_iff h.inode _).mp hread
  · rintro ⟨rfl, hroom⟩
    refine ⟨hblock, ?_, fun g' j => ?_, fun g' => ?_, (takeBlock_total h hg hi hclear).1, ?_⟩
    · unfold Fs.allocated
      rw [hgroup, hindex, hclear]
    · rw [bit_takeBlock fs (Sb.lt_bits hi), hgroup, hindex]
    · rw [hgroup]
      by_cases hne : g' = g
      · subst hne
        rw [if_pos rfl, takeBlock_freeBlocks h hg hi hclear, h.group g' hg]
        exact clear_takeBlock fs hi hclear
      · rw [if_neg hne, takeBlock_groups, Fs.setGroup_of_ne _ _ _ _ hne, Nat.add_zero]
    · rw [hinode]
      exact (getBlocksCount_set_iff h.inode _).mpr hroom

end Taken

/-! ## The condition is exact -/

section Exact

variable {fs : Fs sb} {goal : ℕ} {unaligned : Bool}

/-- Bits up to the source's size of a group are bits of its blocks: those between are set. -/
theorem Fs.Consistent.firstClear_iff (h : fs.Consistent) {g s : ℕ} {res : Option ℕ}
    (hg : g < sb.groups) :
    FirstClear (fs.groups g).bitmap s (ext4BlocksInGroupCnt sb g) res ↔
      FirstClear (fs.groups g).bitmap s (sb.realBlocks g) res := by
  obtain ⟨hle, -, hcnt⟩ := ext4BlocksInGroupCnt_bounds sb hg
  have hbits := sb.blocksPerGroup_le_bits
  cases res with
  | none =>
      refine ⟨fun hall j hlo hhi => hall j hlo (by omega), fun hall j hlo hhi => ?_⟩
      by_cases hj : j < sb.realBlocks g
      · exact hall j hlo hj
      · exact h.padding g hg j (by omega) (by omega)
  | some i =>
      refine ⟨fun hsome => ⟨hsome.1, ?_, hsome.2.2⟩, fun hsome => hsome.of_prefix hle⟩
      have hlt := hsome.2.1
      exact h.lt_realBlocks hg (by omega) hsome.2.2.1

theorem lt_phantom_bits {g i : ℕ} (hg : g < ext4BlockGroupCnt sb) (hreal : ¬ g < sb.groups)
    (hi : i < ext4BlocksInGroupCnt sb g) : i < 8 * sb.blockSize := by
  rw [ext4BlockGroupCnt_eq] at hg
  split at hg
  · next hphantom =>
      obtain rfl : g = sb.groups := by omega
      rw [ext4BlocksInGroupCnt_phantom sb hphantom] at hi
      have := sb.blocks_per_group_ge
      have := sb.blocksPerGroup_le_bits
      omega
  · omega

/-- The outcome of a slot in which a bit is found is sound exactly for a group of the volume, a
    block of 32 bits and an inode with room. -/
theorem found_sound_iff (h : fs.Consistent) {g s i : ℕ} (hg : g < ext4BlockGroupCnt sb)
    (hfirst : FirstClear (fs.groups g).bitmap s (ext4BlocksInGroupCnt sb g) (some i)) :
    SoundOutcome fs (.ok (ext4FsBgIdxToAddr sb i g), takeBlock fs g i) ↔
      g < sb.groups ∧ sb.blockAt g i < 2 ^ 32 ∧ fs.InodeHasRoom := by
  by_cases hreal : g < sb.groups
  · have hfirst := (h.firstClear_iff hreal).mp hfirst
    have hiff := takeBlock_taken_iff (b := ext4FsBgIdxToAddr sb i g) h hreal hfirst.2.1 hfirst.2.2.1
    have haddr : ext4FsBgIdxToAddr sb i g = sb.blockAt g i ↔ sb.blockAt g i < 2 ^ 32 := by
      rw [ext4FsBgIdxToAddr_eq]
      refine ⟨fun heq => ?_, fun hlt => Nat.mod_eq_of_lt hlt⟩
      rw [← heq]
      exact Nat.mod_lt _ (by decide)
    exact hiff.trans ⟨fun hand => ⟨hreal, haddr.mp hand.1, hand.2⟩,
      fun hand => ⟨haddr.mpr hand.2.1, hand.2.2⟩⟩
  · refine ⟨fun htaken => ?_, fun hand => (hreal hand.1).elim⟩
    have hindex := Taken.index htaken (lt_phantom_bits hg hreal hfirst.2.1)
    rw [hindex.1] at hreal
    exact (hreal (Taken.block htaken).index.1).elim

/-- **An allocation is sound exactly under its condition.** -/
theorem alloc_sound_iff (h : fs.Consistent) :
    SoundOutcome fs (ext4BallocAllocBlock unaligned fs goal) ↔ AllocCond fs goal := by
  rcases alloc_cases unaligned h goal with ⟨k, hk, hstop, hout⟩ | ⟨hall, henospc⟩
  · generalize ext4BallocAllocBlock unaligned fs goal = out at hout
    cases hout with
    | found hlook =>
        have hfirst := firstClear_of_look (slotFind_spec unaligned h goal k) hlook
        rw [found_sound_iff h (slotGroup_lt sb goal k) hfirst]
        constructor
        · rintro ⟨hreal, haddr, hroom⟩
          exact Or.inl ⟨k, hk, hstop, hreal, _, (h.firstClear_iff hreal).mp hfirst, haddr, hroom⟩
        · rintro (⟨k₂, -, hstop₂, hreal, i₂, hfirst₂, haddr, hroom⟩ | ⟨hall, -⟩)
          · obtain rfl := hstop.unique hstop₂
            cases hfirst₂.unique ((h.firstClear_iff hreal).mp hfirst)
            exact ⟨hreal, haddr, hroom⟩
          · exact (hstop.2 (hall k hk)).elim
    | failed hlook =>
        constructor
        · rintro ⟨he, -⟩
          exact (error_of_look hlook he).elim
        · rintro (⟨k₂, -, hstop₂, hreal, -⟩ | ⟨hall, -⟩)
          · obtain rfl := hstop.unique hstop₂
            exact (h.look_ok hreal hlook).elim
          · exact (hstop.2 (hall k hk)).elim
  · rw [henospc]
    constructor
    · rintro ⟨-, -, hfull⟩
      exact Or.inr ⟨hall, fun g hg => clearBits_eq_zero.mpr (hfull g hg)⟩
    · rintro (⟨k, hk, hstop, -⟩ | ⟨-, hfull⟩)
      · exact (hstop.2 (hall k hk)).elim
      · exact ⟨rfl, rfl, fun g hg => clearBits_eq_zero.mp (hfull g hg)⟩

/-- A slot that does not pass, if there is one, is behind a first such slot. -/
theorem exists_stops {k : ℕ} (h : ¬ fs.PassesSlot goal k) : ∃ k' ≤ k, fs.Stops goal k' := by
  induction k using Nat.strong_induction_on with
  | _ k ih =>
      by_cases hall : ∀ k' < k, fs.PassesSlot goal k'
      · exact ⟨k, le_rfl, hall, h⟩
      · push Not at hall
        obtain ⟨k', hlt, hk'⟩ := hall
        obtain ⟨k'', hle, hstop⟩ := ih k' hlt hk'
        exact ⟨k'', by omega, hstop⟩

/-- **On a volume of at most `2 ^ 32` blocks that the source counts the groups of right, an
    allocation is sound** if the inode has room or no block is free. -/
theorem allocCond_of_volume (h : fs.Consistent) (hcount : sb.blocksCount ≤ 2 ^ 32)
    (hphantom : ¬ sb.Phantom) (hroom : fs.InodeHasRoom ∨ ∀ g < sb.groups, fs.clear g = 0) :
    AllocCond fs goal := by
  have hcnt := ext4BlockGroupCnt_eq sb
  rw [if_neg hphantom, Nat.add_zero] at hcnt
  by_cases hall : ∀ k ≤ ext4BlockGroupCnt sb, fs.PassesSlot goal k
  · -- every group has been searched from its first block on
    refine Or.inr ⟨hall, fun g hg => ?_⟩
    obtain ⟨k, hk, hle, rfl⟩ := exists_slot sb goal (hcnt ▸ hg)
    obtain ⟨-, hfree | ⟨-, hnone⟩⟩ := hall k hle
    · rw [← h.group _ hg, hfree]
    · rw [h.firstClear_iff hg] at hnone
      refine clearBits_eq_zero.mpr fun i hi => hnone i ?_ hi
      obtain ⟨⟨-, hlt⟩, -⟩ := sb.blockAt_index hi
      unfold Sb.blockAt at hlt
      rw [Nat.mul_comm] at hlt
      have hsmall : slotGroup sb goal k * sb.blocksPerGroup % 2 ^ 32
          = slotGroup sb goal k * sb.blocksPerGroup := Nat.mod_eq_of_lt (by omega)
      unfold slotFrom
      rw [if_neg hk, firstInBgIndex_eq, hsmall, Nat.mul_mod_left]
      exact Nat.zero_le i
  · push Not at hall
    obtain ⟨k₀, hk₀, hnot⟩ := hall
    obtain ⟨k, hle, hstop⟩ := exists_stops hnot
    have hreal : slotGroup sb goal k < sb.groups := by
      rw [← hcnt]
      exact slotGroup_lt sb goal k
    have hspec := slotFind_spec true h goal k
    cases hlook : lookInGroup fs (slotGroup sb goal k) (slotFind sb goal true k) with
    | error e => exact (h.look_ok hreal hlook).elim
    | ok res =>
        cases res with
        | none => exact (hstop.2 ((lookInGroup_none_iff hspec).mp hlook)).elim
        | some i =>
            have hfirst := (h.firstClear_iff hreal).mp (firstClear_of_look hspec hlook)
            obtain ⟨⟨-, hlt⟩, -⟩ := sb.blockAt_index hfirst.2.1
            refine Or.inl ⟨k, by omega, hstop, hreal, i, hfirst, by omega, ?_⟩
            refine hroom.resolve_right fun hfull => ?_
            have := clearBits_pos hfirst.2.1 hfirst.2.2.1
            have := hfull _ hreal
            unfold Fs.clear at this
            omega

end Exact

end Ext4

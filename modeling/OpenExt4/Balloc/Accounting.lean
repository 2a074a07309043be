import OpenExt4.Balloc.FreeProofs
import OpenExt4.Balloc.Sound

set_option autoImplicit false

/-! # The accounts of the allocator

For each of the four calls of the allocator, what it owes its caller (`Meets`) and exactly when it
keeps to it (`Cond`); and from the steps, that in a run of calls that all keep to it no block is
handed out twice without being freed in between. -/

namespace Ext4

open Bytes

variable {sb : Sb}

/-! ## Freeing one block -/

/-- A range of one bit is freed by clearing the bit. -/
theorem bmapBitsFree_one {n : ℕ} (unaligned : Bool) (bmap : Buf n) (i : ℕ) :
    bmapBitsFree unaligned bmap i 1 = bmapBitClr bmap i := by
  have hwalk : ∀ st : Walk n, st.bcnt ≤ 1 → clrWalk unaligned st = st := by
    intro st hst
    have hunits : ∀ w fuel, 0 < w → clrUnits w fuel st = st := by
      intro w fuel hw
      cases fuel with
      | zero => rfl
      | succ fuel => rw [clrUnits, if_neg (by omega)]
    unfold clrWalk
    simp only [hunits _ _ (show 0 < 4 by decide), hunits _ _ (show 0 < 2 by decide), ite_self,
      hunits _ _ (show 0 < 1 by decide)]
  unfold bmapBitsFree
  dsimp only
  rw [hwalk _ (by dsimp only; omega)]
  dsimp only
  by_cases halign : i % 8 = 0
  · have hzero : min 1 ((8 - i % 8) % 8) = 0 := by omega
    rw [hzero, Nat.add_zero, show 8 * (i / 8) = i by omega]
    rfl
  · have hone : min 1 ((8 - i % 8) % 8) = 1 := by omega
    rw [hone]
    rfl

/-- The volume has the blocks of the range, and they are allocated; the descriptors have room for
    their count, and the inode has been charged for them. -/
structure Freeable (fs : Fs sb) (first count : ℕ) : Prop where
  allocated : ∀ b, first ≤ b → b < first + count → fs.allocated b = true
  room : ∀ g < sb.groups, fs.clear g + sb.share first count g < freeCountRoom sb
  inode : count * inodeUnits sb ≤ ext4InodeGetBlocksCount sb fs.inode

/-- What a free of a range owes its caller: a range that is not inside the volume is refused, and
    after one that is the accounts are true, of which exactly the range has been freed if it was
    allocated. -/
def FreeMeets (fs : Fs sb) (first count : ℕ) (out : Except Errno Unit × Fs sb) : Prop :=
  if sb.Inside first count then
    out.2.Consistent ∧ ((∀ b, first ≤ b → b < first + count → fs.allocated b = true) →
      out.1 = .ok () ∧ Freed fs out.2 first count)
  else ∃ e, out = (.error e, fs)

section Free

variable {fs : Fs sb} {unaligned : Bool} {first count : ℕ}

/-- The loop of a range inside the volume. -/
theorem freeBlocks_inside (unaligned : Bool) (fs : Fs sb) (hpos : 0 < count)
    (hin : sb.Inside first count) :
    ∃ turns, Aligned sb turns (sb.groupOf first) first count ∧
      sb.groupOf first + turns ≤ sb.groups ∧
      ext4BallocFreeBlocks unaligned fs first count
        = freeGroups unaligned turns (sb.groupOf first) first count fs := by
  obtain ⟨hlo, hhi⟩ := hin.resolve_left (by omega)
  have hfirst : sb.HasBlock first := ⟨hlo, by omega⟩
  have hlast : sb.HasBlock (first + count - 1) := ⟨by omega, by omega⟩
  have hmono := sb.groupOf_mono (show first ≤ first + count - 1 by omega)
  have hlt := hlast.index.1
  refine ⟨sb.groupOf (first + count - 1) + 1 - sb.groupOf first,
    Or.inr ⟨hpos, hlo, hhi, rfl, by omega⟩, by omega, ?_⟩
  unfold ext4BallocFreeBlocks
  rw [if_neg (by omega), if_neg (by omega), ext4BallocGetBgidOfBlock_eq hfirst,
    ext4BallocGetBgidOfBlock_eq hlast]

/-- **A range inside the volume is freed as it should be exactly if** it is freeable and no turn
    goes past its group. -/
theorem freeBlocks_meets_iff (h : fs.Consistent) (hpos : 0 < count) (hin : sb.Inside first count) :
    FreeMeets fs first count (ext4BallocFreeBlocks unaligned fs first count) ↔
      Capped sb first count ∧ Freeable fs first count := by
  obtain ⟨turns, halign, hgroups, hrun⟩ := freeBlocks_inside unaligned fs hpos hin
  unfold FreeMeets
  rw [if_pos hin, hrun]
  constructor
  · rintro ⟨hcons, hfreed⟩
    have htotal := h.total
    have hsum := fs.sum_clear_lt
    -- with a deficit the superblock would count more than there is
    have hkept : ¬ (¬ Capped sb first count ∨
        ∃ b, first ≤ b ∧ b < first + count ∧ fs.allocated b = false) := by
      intro hlost
      obtain ⟨fs', hrun', hnew, hlt⟩ := freeGroups_deficit h.readable hgroups halign (by omega)
        hpos hlost
      rw [hrun'] at hcons
      have hnew' : fs'.freeBlocks = ∑ k ∈ Finset.range sb.groups, fs'.clear k := hcons.total
      have hN := sb.fits_device
      have hcount : count < 2 ^ 54 := by
        have hle : sb.blocksCount * 1024 ≤ sb.blocksCount * (1024 * 2 ^ sb.logBlockSize) :=
          Nat.mul_le_mul_left _ (Nat.le_mul_of_pos_right _ (Nat.two_pow_pos _))
        have := hin.resolve_left (by omega)
        omega
      rw [htotal, Nat.mod_eq_of_lt (by omega)] at hnew
      omega
    rw [not_or, not_not] at hkept
    obtain ⟨hcap, hfree⟩ := hkept
    have hset : ∀ b, first ≤ b → b < first + count → fs.allocated b = true := by
      intro b hlo hhi
      by_contra hne
      exact hfree ⟨b, hlo, hhi, by simpa using hne⟩
    obtain ⟨-, hfreed⟩ := hfreed hset
    refine ⟨hcap, hset, fun g hg => ?_, ?_⟩
    · have hgroup := hfreed.group g
      rw [hcons.group g hg, h.group g hg] at hgroup
      rw [← hgroup]
      exact hcons.group_room g hg
    · have := hfreed.inode
      omega
  · rintro ⟨hcap, hset, hroom, hinode⟩
    obtain ⟨fs', hrun', hcons, hfreed⟩ := freeGroups_freed h halign hcap hset hroom hinode
    rw [hrun']
    exact ⟨hcons, fun _ => ⟨rfl, hfreed⟩⟩

/-- A range that is not inside the volume is refused, one of no blocks has nothing to do. -/
theorem freeBlocks_meets_of_outside (h : fs.Consistent)
    (hout : count = 0 ∨ ¬ sb.Inside first count) :
    FreeMeets fs first count (ext4BallocFreeBlocks unaligned fs first count) := by
  unfold FreeMeets ext4BallocFreeBlocks
  by_cases hzero : count = 0
  · subst hzero
    have hin : sb.Inside first 0 := Or.inl rfl
    rw [if_pos hin, if_pos rfl]
    exact ⟨h, fun _ => ⟨rfl, Freed.refl fs first⟩⟩
  · have hnot := hout.resolve_left hzero
    have hbad : first < sb.firstDataBlock ∨ sb.blocksCount ≤ first ∨
        sb.blocksCount - first < count := by
      unfold Sb.Inside at hnot
      omega
    rw [if_neg hnot, if_neg hzero, if_pos hbad]
    exact ⟨Errno.EINVAL, rfl⟩

/-- A block of the volume is freed as a range of one. -/
theorem freeBlock_eq (unaligned : Bool) (fs : Fs sb) {b : ℕ} (hb : sb.HasBlock b) :
    ext4BallocFreeBlock fs b = ext4BallocFreeBlocks unaligned fs b 1 := by
  obtain ⟨hlo, hhi⟩ := hb
  have hidx : ext4FsAddrToIdxBg sb b < sb.blocksPerGroup := Nat.mod_lt _ sb.blocksPerGroup_pos
  have hcnt : turnCnt sb b 1 = 1 := by
    have := sb.blocksPerGroup_le_bits
    unfold turnCnt
    omega
  have hturns : ext4BallocGetBgidOfBlock sb (b + 1 - 1) + 1
      - ext4BallocGetBgidOfBlock sb b = 1 := by
    rw [Nat.add_sub_cancel]
    omega
  unfold ext4BallocFreeBlock ext4BallocFreeBlocks
  rw [if_neg (by decide), if_neg (by omega)]
  dsimp only
  rw [hturns, freeGroups]
  split
  · rfl
  · unfold freeTurn freeGroups
    rw [hcnt, bmapBitsFree_one]

theorem freeBlock_meets_iff (h : fs.Consistent) {b : ℕ} :
    FreeMeets fs b 1 (ext4BallocFreeBlock fs b) ↔
      if sb.HasBlock b then Freeable fs b 1
      else (fs.groups (ext4BallocGetBgidOfBlock sb b)).readErr ≠ none := by
  split
  · next hb =>
      have hcap : Capped sb b 1 := Or.inr (sb.indexOf_lt b)
      rw [freeBlock_eq true fs hb,
        freeBlocks_meets_iff h (by decide) (Or.inr ⟨hb.1, hb.2⟩)]
      exact ⟨fun hand => hand.2, fun hfree => ⟨hcap, hfree⟩⟩
  · next hb =>
      have hnot : ¬ sb.Inside b 1 := by
        unfold Sb.Inside
        unfold Sb.HasBlock at hb
        omega
      unfold FreeMeets ext4BallocFreeBlock
      rw [if_neg hnot]
      dsimp only
      cases hread : (fs.groups (ext4BallocGetBgidOfBlock sb b)).readErr with
      | some e => exact ⟨fun _ => nofun, fun _ => ⟨e.errno, rfl⟩⟩
      | none =>
          refine ⟨fun ⟨e, he⟩ => ?_, fun hne => (hne rfl).elim⟩
          cases congrArg Prod.fst he

end Free

/-! ## The calls -/

/-- A call of the allocator. -/
inductive Call where
  | alloc (goal : ℕ)
  | tryAlloc (baddr : ℕ)
  | freeBlock (baddr : ℕ)
  | freeBlocks (first count : ℕ)

namespace Call

/-- What a call does: the block it hands out, if any, and the state it leaves. -/
def exec (unaligned : Bool) (fs : Fs sb) : Call → Except Errno (Option ℕ) × Fs sb
  | alloc goal => (ext4BallocAllocBlock unaligned fs goal).map (·.map some) id
  | tryAlloc baddr =>
      (ext4BallocTryAllocBlock fs baddr).map
        (·.map fun free => if free then some baddr else none) id
  | freeBlock baddr => (ext4BallocFreeBlock fs baddr).map (·.map fun _ => none) id
  | freeBlocks first count =>
      (ext4BallocFreeBlocks unaligned fs first count).map (·.map fun _ => none) id

/-- The accounts after a call are true, and a free does what it owes. -/
def Meets (unaligned : Bool) (fs : Fs sb) : Call → Prop
  | alloc goal => (ext4BallocAllocBlock unaligned fs goal).2.Consistent
  | tryAlloc baddr => (ext4BallocTryAllocBlock fs baddr).2.Consistent
  | freeBlock baddr => FreeMeets fs baddr 1 (ext4BallocFreeBlock fs baddr)
  | freeBlocks first count =>
      FreeMeets fs first count (ext4BallocFreeBlocks unaligned fs first count)

/-- When a call does what it owes. An allocation must not come to a free bit of the group that is
    not there; a single block that the volume does not have must be in a group that cannot be read;
    the blocks of a range must be freeable and the range in one group, or the groups as large as a
    bitmap block allows. -/
def Cond (fs : Fs sb) : Call → Prop
  | alloc goal => ∀ k ≤ ext4BlockGroupCnt sb, fs.Stops goal k → sb.groups ≤ slotGroup sb goal k →
      (fs.groups (slotGroup sb goal k)).readErr ≠ none
  | tryAlloc _ => True
  | freeBlock baddr =>
      if sb.HasBlock baddr then Freeable fs baddr 1
      else (fs.groups (ext4BallocGetBgidOfBlock sb baddr)).readErr ≠ none
  | freeBlocks first count =>
      0 < count → sb.Inside first count → Capped sb first count ∧ Freeable fs first count

end Call

section Calls

variable {fs : Fs sb} {unaligned : Bool}

/-- Off the volume there is nothing for the superblock to count. -/
theorem takeBlock_not_consistent (h : fs.Consistent) {g i : ℕ} (hg : sb.groups ≤ g) :
    ¬ (takeBlock fs g i).Consistent := by
  intro hcons
  have hsame : ∑ k ∈ Finset.range sb.groups, (takeBlock fs g i).clear k
      = ∑ k ∈ Finset.range sb.groups, fs.clear k := by
    refine Finset.sum_congr rfl fun k hk => clear_takeBlock_of_ne fs i ?_
    rw [Finset.mem_range] at hk
    omega
  have hlt := fs.sum_clear_lt
  have htotal := h.total
  have hnew : (takeBlock fs g i).freeBlocks = (fs.freeBlocks + (2 ^ 64 - 1)) % 2 ^ 64 := rfl
  have hnew' := hcons.total
  rw [hsame] at hnew'
  omega

theorem readErr_eq_none_of_look {g i : ℕ} {find : Buf sb.blockSize → Option ℕ}
    (h : lookInGroup fs g find = .ok (some i)) : (fs.groups g).readErr = none := by
  unfold lookInGroup at h
  unfold Group.readErr
  split at h
  · cases h
  · split at h
    · cases h
    · split at h
      · cases h
      · assumption

theorem readErr_ne_none_of_look {g : ℕ} {find : Buf sb.blockSize → Option ℕ} {e : Errno}
    (h : lookInGroup fs g find = .error e) : (fs.groups g).readErr ≠ none := by
  unfold lookInGroup at h
  unfold Group.readErr
  split at h
  · exact nofun
  · split at h
    · cases h
    · split at h
      · next hbitmap =>
          rw [hbitmap]
          exact nofun
      · cases h

theorem alloc_consistent_iff (h : fs.Consistent) {goal : ℕ} :
    (ext4BallocAllocBlock unaligned fs goal).2.Consistent ↔ (Call.alloc goal).Cond fs := by
  rcases alloc_cases unaligned h goal with ⟨k, hk, hstop, hout⟩ | ⟨hall, henospc⟩
  · generalize ext4BallocAllocBlock unaligned fs goal = out at hout
    cases hout with
    | found hlook =>
        have hread := readErr_eq_none_of_look hlook
        have hfirst := firstClear_of_look (slotFind_spec unaligned h goal k) hlook
        by_cases hreal : slotGroup sb goal k < sb.groups
        · have hfirst := (h.firstClear_iff hreal).mp hfirst
          refine ⟨fun _ k₂ _ hstop₂ hphantom => ?_,
            fun _ => h.takeBlock hreal hfirst.2.1 hfirst.2.2.1⟩
          obtain rfl := hstop.unique hstop₂
          omega
        · refine ⟨fun hcons => ?_, fun hcond => ?_⟩
          · exact (takeBlock_not_consistent h (by omega) hcons).elim
          · exact (hcond k hk hstop (by omega) hread).elim
    | failed hlook =>
        refine ⟨fun _ k₂ _ hstop₂ _ => ?_, fun _ => h⟩
        obtain rfl := hstop.unique hstop₂
        exact readErr_ne_none_of_look hlook
  · rw [henospc]
    exact ⟨fun _ k hk hstop _ => (hstop.2 (hall k hk)).elim, fun _ => h⟩

/-- A block that was free is taken, of any other the state is left alone. -/
theorem tryAlloc_cases (h : fs.Consistent) (b : ℕ) :
    (ext4BallocTryAllocBlock fs b = (.ok true, takeBlock fs (sb.groupOf b) (sb.indexOf b)) ∧
      sb.HasBlock b ∧ fs.allocated b = false) ∨
    ext4BallocTryAllocBlock fs b = (.ok false, fs) := by
  unfold ext4BallocTryAllocBlock
  by_cases hb : sb.HasBlock b
  · rw [if_neg (not_not.mpr hb), ext4BallocGetBgidOfBlock_eq hb, ext4FsAddrToIdxBg_eq hb]
    dsimp only
    rw [h.readable _ hb.index.1]
    cases hbit : bit (fs.groups (sb.groupOf b)).bitmap (sb.indexOf b) with
    | false => exact Or.inl ⟨rfl, hb, hbit⟩
    | true => exact Or.inr rfl
  · rw [if_pos hb]
    exact Or.inr rfl

theorem tryAlloc_consistent (h : fs.Consistent) (b : ℕ) :
    (ext4BallocTryAllocBlock fs b).2.Consistent := by
  rcases tryAlloc_cases h b with ⟨htake, hb, hfree⟩ | hleft
  · rw [htake]
    exact h.takeBlock hb.index.1 hb.index.2.1 hfree
  · rw [hleft]
    exact h

theorem meets_iff (unaligned : Bool) (h : fs.Consistent) (c : Call) :
    c.Meets unaligned fs ↔ c.Cond fs := by
  cases c with
  | alloc goal => exact alloc_consistent_iff h
  | tryAlloc baddr => exact ⟨fun _ => trivial, fun _ => tryAlloc_consistent h baddr⟩
  | freeBlock baddr => exact freeBlock_meets_iff h
  | freeBlocks first count =>
      show FreeMeets fs first count (ext4BallocFreeBlocks unaligned fs first count) ↔
        (0 < count → sb.Inside first count → Capped sb first count ∧ Freeable fs first count)
      by_cases hpos : 0 < count
      · by_cases hin : sb.Inside first count
        · rw [freeBlocks_meets_iff h hpos hin]
          exact ⟨fun hand _ _ => hand, fun hcond => hcond hpos hin⟩
        · exact ⟨fun _ _ hin' => (hin hin').elim,
            fun _ => freeBlocks_meets_of_outside h (Or.inr hin)⟩
      · exact ⟨fun _ hpos' => (hpos hpos').elim,
          fun _ => freeBlocks_meets_of_outside h (Or.inl (by omega))⟩

theorem FreeMeets.consistent (h : fs.Consistent) {first count : ℕ} {out : Except Errno Unit × Fs sb}
    (hmeets : FreeMeets fs first count out) : out.2.Consistent := by
  unfold FreeMeets at hmeets
  split at hmeets
  · exact hmeets.1
  · obtain ⟨e, rfl⟩ := hmeets
    exact h

/-- A call that does what it owes leaves the accounts true. -/
theorem Call.Cond.consistent (unaligned : Bool) (h : fs.Consistent) {c : Call} (hc : c.Cond fs) :
    (c.exec unaligned fs).2.Consistent := by
  have hmeets := (meets_iff unaligned h c).mpr hc
  cases c with
  | alloc goal => exact hmeets
  | tryAlloc baddr => exact hmeets
  | freeBlock baddr => exact FreeMeets.consistent h hmeets
  | freeBlocks first count => exact FreeMeets.consistent h hmeets

end Calls

/-! ## Runs -/

/-- A block the call gives back. -/
def Call.Frees (b : ℕ) : Call → Prop
  | .alloc _ => False
  | .tryAlloc _ => False
  | .freeBlock baddr => b = baddr
  | .freeBlocks first count => first ≤ b ∧ b < first + count

/-- A call that does what it owes, an allocation soundly. -/
def Call.Good (fs : Fs sb) (c : Call) : Prop :=
  match c with
  | .alloc goal => AllocCond fs goal
  | c => c.Cond fs

/-- Every call of the run is good in the state it is made in. -/
def GoodRun (unaligned : Bool) : Fs sb → List Call → Prop
  | _, [] => True
  | fs, c :: calls => c.Good fs ∧ GoodRun unaligned (c.exec unaligned fs).2 calls

/-- No call of the run hands out a block that has an owner: `held` are the blocks that have one, a
    block gets one when it is handed out and loses it when it is freed. -/
def HandedOutOnce (unaligned : Bool) : Fs sb → Set ℕ → List Call → Prop
  | _, _, [] => True
  | fs, held, c :: calls =>
      (∀ b, (c.exec unaligned fs).1 = .ok (some b) → b ∉ held) ∧
      HandedOutOnce unaligned (c.exec unaligned fs).2
        {b | (c.exec unaligned fs).1 = .ok (some b) ∨ b ∈ held ∧ ¬ c.Frees b} calls

section Runs

variable {fs : Fs sb} {unaligned : Bool}

theorem AllocCond.cond {goal : ℕ} (h : AllocCond fs goal) : (Call.alloc goal).Cond fs := by
  intro k hk hstop hphantom
  rcases h with ⟨k₂, -, hstop₂, hreal, -⟩ | ⟨hall, -⟩
  · obtain rfl := hstop.unique hstop₂
    omega
  · exact (hstop.2 (hall k hk)).elim

theorem Call.Good.cond {c : Call} (h : c.Good fs) : c.Cond fs := by
  cases c with
  | alloc goal => exact AllocCond.cond h
  | tryAlloc baddr => exact h
  | freeBlock baddr => exact h
  | freeBlocks first count => exact h

/-- A call hands out a free block only, and unsets the bits of the blocks it frees only. -/
structure Owned (fs fs' : Fs sb) (c : Call) (given : Except Errno (Option ℕ)) : Prop where
  free : ∀ b, given = .ok (some b) → fs.allocated b = false ∧ fs'.allocated b = true
  kept : ∀ b, sb.HasBlock b → ¬ c.Frees b → fs.allocated b = true → fs'.allocated b = true
  block : ∀ b, given = .ok (some b) → sb.HasBlock b

theorem Owned.same (c : Call) {given : Except Errno (Option ℕ)} (h : ∀ b, given ≠ .ok (some b)) :
    Owned fs fs c given :=
  ⟨fun b hb => (h b hb).elim, fun _ _ _ hset => hset, fun b hb => (h b hb).elim⟩

theorem FreeMeets.owned {c : Call} {first count : ℕ} {out : Except Errno Unit × Fs sb}
    (hmeets : FreeMeets fs first count out)
    (hset : 0 < count → sb.Inside first count →
      ∀ b, first ≤ b → b < first + count → fs.allocated b = true)
    (hfrees : ∀ b, c.Frees b ↔ first ≤ b ∧ b < first + count) :
    Owned fs out.2 c (out.1.map fun _ => none) := by
  have hgiven : ∀ b, (out.1.map fun _ => (none : Option ℕ)) ≠ .ok (some b) := by
    intro b
    cases out.1 <;> exact nofun
  unfold FreeMeets at hmeets
  split at hmeets
  · next hin =>
      have hfreed := (hmeets.2 (by
        intro b hlo hhi
        exact hset (by omega) hin b hlo hhi)).2
      refine ⟨fun b hb => (hgiven b hb).elim, fun b hb hnot hkeep => ?_,
        fun b hb => (hgiven b hb).elim⟩
      have hout : ¬ sb.InRange first count (sb.groupOf b) (sb.indexOf b) := by
        rintro ⟨-, -, hlo, hhi⟩
        rw [hb.index.2.2] at hlo hhi
        exact hnot ((hfrees b).mpr ⟨hlo, hhi⟩)
      unfold Fs.allocated at *
      rw [hfreed.bits, hkeep, decide_eq_false hout]
      rfl
  · obtain ⟨e, rfl⟩ := hmeets
    exact Owned.same c hgiven

theorem takeBlock_allocated {b : ℕ} (hb : sb.HasBlock b) (b' : ℕ) :
    (takeBlock fs (sb.groupOf b) (sb.indexOf b)).allocated b'
      = (decide (sb.groupOf b' = sb.groupOf b ∧ sb.indexOf b' = sb.indexOf b) || fs.allocated b') :=
  bit_takeBlock fs (Sb.lt_bits hb.index.2.1) ..

/-- **What one good call does to the owners.** -/
theorem Call.Good.owned (unaligned : Bool) (h : fs.Consistent) {c : Call} (hc : c.Good fs) :
    Owned fs (c.exec unaligned fs).2 c (c.exec unaligned fs).1 := by
  have hmeets := (meets_iff unaligned h c).mpr hc.cond
  cases c with
  | alloc goal =>
      have hsound : SoundOutcome fs (ext4BallocAllocBlock unaligned fs goal) :=
        (alloc_sound_iff h).mpr hc
      unfold Call.exec
      dsimp only
      generalize ext4BallocAllocBlock unaligned fs goal = out at hsound
      obtain ⟨res, fs'⟩ := out
      cases res with
      | error e =>
          obtain ⟨-, rfl, -⟩ := hsound
          exact Owned.same _ nofun
      | ok b =>
          have htaken : Taken fs fs' b := hsound
          have hbits : ∀ b', fs'.allocated b' = (decide (sb.groupOf b' = sb.groupOf b ∧
              sb.indexOf b' = sb.indexOf b) || fs.allocated b') := fun b' => htaken.bits _ _
          refine ⟨fun b' hb' => ?_, fun b' _ _ hset => ?_, fun b' hb' => ?_⟩
          · cases hb'
            refine ⟨htaken.clear, ?_⟩
            show fs'.allocated b = true
            rw [hbits, decide_eq_true ⟨rfl, rfl⟩, Bool.true_or]
          · show fs'.allocated b' = true
            rw [hbits, hset, Bool.or_true]
          · cases hb'
            exact htaken.block
  | tryAlloc baddr =>
      unfold Call.exec
      dsimp only
      rcases tryAlloc_cases h baddr with ⟨htake, hb, hfree⟩ | hleft
      · rw [htake]
        refine ⟨fun b' hb' => ?_, fun b' _ _ hset => ?_, fun b' hb' => ?_⟩
        · cases hb'
          refine ⟨hfree, ?_⟩
          show (takeBlock fs _ _).allocated baddr = true
          rw [takeBlock_allocated hb, decide_eq_true ⟨rfl, rfl⟩, Bool.true_or]
        · show (takeBlock fs _ _).allocated b' = true
          rw [takeBlock_allocated hb, hset, Bool.or_true]
        · cases hb'
          exact hb
      · rw [hleft]
        exact Owned.same _ nofun
  | freeBlock baddr =>
      refine FreeMeets.owned hmeets (fun _ hin => ?_) fun b => ?_
      · have hb : sb.HasBlock baddr := by
          have := hin.resolve_left (by decide)
          exact ⟨this.1, by omega⟩
        have hfree : Freeable fs baddr 1 := by
          have hcond : if sb.HasBlock baddr then Freeable fs baddr 1
              else (fs.groups (ext4BallocGetBgidOfBlock sb baddr)).readErr ≠ none := hc.cond
          rwa [if_pos hb] at hcond
        exact hfree.allocated
      · unfold Call.Frees
        omega
  | freeBlocks first count =>
      exact FreeMeets.owned hmeets (fun hpos hin => (hc.cond hpos hin).2.allocated) fun b => Iff.rfl

/-- **In a run of good calls no block is handed out to a second owner.** -/
theorem GoodRun.handedOutOnce (h : fs.Consistent) {held : Set ℕ}
    (hheld : ∀ b ∈ held, sb.HasBlock b ∧ fs.allocated b = true) {calls : List Call}
    (hrun : GoodRun unaligned fs calls) : HandedOutOnce unaligned fs held calls := by
  induction calls generalizing fs held with
  | nil => trivial
  | cons c calls ih =>
      obtain ⟨hc, hrest⟩ := hrun
      have howned := hc.owned unaligned h
      refine ⟨fun b hb hmem => ?_, ih (hc.cond.consistent unaligned h) ?_ hrest⟩
      · have hset := (hheld b hmem).2
        rw [(howned.free b hb).1] at hset
        cases hset
      · rintro b (hb | ⟨hmem, hnot⟩)
        · exact ⟨howned.block b hb, (howned.free b hb).2⟩
        · exact ⟨(hheld b hmem).1, howned.kept b (hheld b hmem).1 hnot (hheld b hmem).2⟩

end Runs

/-! ## Volumes without a free block -/

/-- A volume all of whose blocks are allocated. -/
def fullFs (sb : Sb) (inode : InodeBlocks) : Fs sb where
  groups _ := { bitmap := fun _ => 0xFF, freeBlocks := 0, descErr := none, bitmapErr := none }
  freeBlocks := 0
  inode := inode

theorem bit_fullFs (sb : Sb) (inode : InodeBlocks) (g : ℕ) {i : ℕ} (hi : i < 8 * sb.blockSize) :
    bit ((fullFs sb inode).groups g).bitmap i = true := by
  refine bit_of_full ?_
  show (if h : i / 8 < sb.blockSize then (0xFF : UInt8) else 0) = 0xFF
  rw [dif_pos (by omega)]

theorem clear_fullFs (sb : Sb) (inode : InodeBlocks) (g : ℕ) : (fullFs sb inode).clear g = 0 :=
  clearBits_eq_zero.mpr fun _ hi => bit_fullFs sb inode g (Sb.lt_bits hi)

theorem fullFs_consistent (sb : Sb) {inode : InodeBlocks} (h : inode.Wf) :
    (fullFs sb inode).Consistent where
  readable _ _ := rfl
  padding g _ i _ hi := bit_fullFs sb inode g (by omega)
  group g _ := (clear_fullFs sb inode g).symm
  group_room g _ := by
    rw [clear_fullFs]
    exact freeCountRoom_pos sb
  total := (Finset.sum_eq_zero fun g _ => clear_fullFs sb inode g).symm
  inode := h

/-- A volume with one free block, that of bit `i` of group `g`. -/
def oneFree (sb : Sb) (inode : InodeBlocks) (g i : ℕ) : Fs sb :=
  giveBlocks (fullFs sb inode) g (bmapBitClr ((fullFs sb inode).groups g).bitmap i) 1

section OneFree

variable {inode : InodeBlocks} {g i : ℕ}

theorem oneFree_turnOk (hg : g < sb.groups) (hi : i < sb.realBlocks g)
    (hinode : inodeUnits sb ≤ ext4InodeGetBlocksCount sb inode) :
    TurnOk (fullFs sb inode) g i 1 where
  group := hg
  fits := hi
  set j _ hj := bit_fullFs sb inode g (by have := Sb.lt_bits hi; omega)
  room := by
    rw [clear_fullFs]
    unfold freeCountRoom
    split <;> decide
  inode := by
    rw [Nat.one_mul]
    exact hinode

theorem oneFree_cleared (hi : i < sb.realBlocks g) :
    ClearedBits ((fullFs sb inode).groups g).bitmap
      (bmapBitClr ((fullFs sb inode).groups g).bitmap i) i 1 := by
  intro j
  rw [bit_bmapBitClr (Sb.lt_bits hi), Bool.and_comm]
  congr 2
  exact decide_eq_decide.mpr (by omega)

theorem oneFree_consistent (hwf : inode.Wf) (hg : g < sb.groups) (hi : i < sb.realBlocks g)
    (hinode : inodeUnits sb ≤ ext4InodeGetBlocksCount sb inode) :
    (oneFree sb inode g i).Consistent :=
  (oneFree_turnOk hg hi hinode).consistent (fullFs_consistent sb hwf) (oneFree_cleared hi)

theorem bit_oneFree (hi : i < sb.realBlocks g) {g' j : ℕ} (hj : j < 8 * sb.blockSize) :
    bit ((oneFree sb inode g i).groups g').bitmap j = !decide (g' = g ∧ j = i) := by
  unfold oneFree
  rw [bit_giveBlocks (oneFree_cleared hi), bit_fullFs sb inode g' hj, Bool.true_and]
  congr 1
  exact decide_eq_decide.mpr (by omega)

theorem clear_oneFree (hg : g < sb.groups) (hi : i < sb.realBlocks g)
    (hinode : inodeUnits sb ≤ ext4InodeGetBlocksCount sb inode) :
    (oneFree sb inode g i).clear g = 1 := by
  unfold oneFree
  rw [(oneFree_turnOk hg hi hinode).clear (oneFree_cleared hi), clear_fullFs]

end OneFree

/-! ## Allocation -/

/-- A volume of 19 blocks behind the boot block, in groups of eight. -/
def smallSb : Sb where
  logBlockSize := 0
  blocksCount := 20
  firstDataBlock := 1
  blocksPerGroup := 8
  inodesPerGroup := 8
  inodesCount := 24
  descSize := 32
  hugeFile := false
  log_block_size := by decide
  fits_device := by decide
  blocks_per_group_ge := by decide
  blocks_per_group_le := by decide
  blocks_per_group_mod := by decide
  first_data_block := rfl
  first_data_block_lt := by decide
  inodes_per_group_ge := by decide
  inodes_count_lt := by decide
  inodes_count := rfl

/-- An inode of 32 blocks of 1 KiB. -/
def smallInode : InodeBlocks := ⟨64, 0, false⟩

theorem smallInode_wf : smallInode.Wf := ⟨by decide, by decide⟩

/-- A volume of 4 KiB blocks that is one block larger than 32 bits count. -/
def largeSb : Sb where
  logBlockSize := 2
  blocksCount := 2 ^ 32 + 1
  firstDataBlock := 0
  blocksPerGroup := 32768
  inodesPerGroup := 8
  inodesCount := 1048584
  descSize := 64
  hugeFile := false
  log_block_size := by decide
  fits_device := by decide
  blocks_per_group_ge := by decide
  blocks_per_group_le := by decide
  blocks_per_group_mod := by decide
  first_data_block := rfl
  first_data_block_lt := by decide
  inodes_per_group_ge := by decide
  inodes_count_lt := by decide
  inodes_count := by decide

end Ext4

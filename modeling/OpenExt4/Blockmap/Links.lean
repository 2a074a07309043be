import OpenExt4.Blockmap.LinkRuns
import OpenExt4.Bridge.Runs

set_option autoImplicit false

/-! # Links read back and end

A link reads back as its target at any time after it was made. Its end gives back what it took and
no more, once each, except that the first and the last three pointers are followed in a short link
that has a block of attributes, where they are bytes of the target, and that a block whose number
does not fit a pointer is lost. -/

namespace Blockmap

open Bytes Transitions

variable {bs : ℕ} {env : LinkEnv bs} {n n' : Ext4b.Volume} {s : Space bs} {r r' : Ref bs}
variable {target : List UInt8} {b : ℕ}

/-- The end of the link succeeds, and gives back every block that it took, once. -/
def GivesBack (env : LinkEnv bs) (r : Ref bs) : Prop :=
  ∃ r', deleteInode env.toEnv r = .ok r' ∧ r'.freed.Perm r'.taken

/-- A pointer as the bytes of a short target show it. -/
def targetWord (target : List UInt8) (j : ℕ) : ℕ := getLE 4 (targetBuf 60 target) (4 * j)

/-! ## The truncation -/

theorem blocksFor_one {len : ℕ} (hpos : 0 < len) (hlen : len < bs) : blocksFor bs len = 1 := by
  have hone : (len + bs - 1) / bs = 1 := Nat.div_eq_of_lt_le (by omega) (by omega)
  rw [blocksFor, hone, Nat.mod_eq_of_lt (by decide)]

/-- A link with a block is truncated by the release of its first pointer. -/
theorem Link.truncate_released (hbs : FormatSize bs) (h : Link env target b r)
    (hpos : 0 < target.length) (hlen : target.length < bs) (hblocks : linkBlocks target b r ≠ []) :
    truncateInode env.toEnv r 0 =
      releaseInodeBlock env.toEnv r 0 >>= fun r => .ok (r.setSize 0) := by
  have hcount : r.inode.blocksCount ≠ 0 := by
    rw [h.count]
    exact Nat.mul_ne_zero (fun hzero => hblocks (List.length_eq_zero_iff.mp hzero))
      (unit_pos hbs).ne'
  have hdiff : (blocksFor bs target.length + 2 ^ 32 - blocksFor bs 0) % 2 ^ 32 = 1 := by
    rw [blocksFor_zero hbs, blocksFor_one hpos hlen]
    decide
  unfold truncateInode
  rw [h.canTruncate, h.size, if_neg (by decide), if_neg (by omega), if_neg (Nat.not_lt_zero _),
    if_neg (fun hshort => hcount hshort.2.2)]
  dsimp only
  rw [hdiff, mappedByExtents, h.extents, Bool.and_false, if_neg Bool.false_ne_true,
    blocksFor_zero hbs]
  rfl

/-- A short link without a block is truncated to zeros. -/
theorem Link.truncate_short (h : Link env target b r) (hpos : 0 < target.length)
    (hshort : target.length < 60) (hblocks : linkBlocks target b r = []) :
    truncateInode env.toEnv r 0 = .ok ({ r with
      inode := { r.inode with blocks := patch r.inode.blocks 0 60 fun _ => 0 } }.setSize 0) := by
  have hcount : r.inode.blocksCount = 0 := by
    rw [h.count, hblocks, List.length_nil, Nat.zero_mul]
  unfold truncateInode
  rw [h.canTruncate, h.size, if_neg (by decide), if_neg (by omega), if_neg (Nat.not_lt_zero _),
    if_pos ⟨h.type, hshort, hcount⟩]

theorem releaseInodeBlock_first : releaseInodeBlock env.toEnv r 0 =
    if r.inode.directBlock 0 = 0 then .ok r
    else freeBlock env.toEnv { r with inode := r.inode.setDirectBlock 0 0 }
      (r.inode.directBlock 0) := by
  rw [releaseInodeBlock, if_pos (by decide)]

/-! ## The end -/

theorem directBlock_zeros {inode : Inode} (j : ℕ) (hj : j < 15) :
    Inode.directBlock { inode with blocks := patch inode.blocks 0 60 fun _ => 0 } j = 0 := by
  have hzeros : ∀ i, 4 * j ≤ i → i < 4 * j + 4 →
      get8 (patch inode.blocks 0 60 fun _ => 0) i = get8 (zeros 60) i := by
    intro i _ hi
    rw [get8_patch_of_mem (by omega) (Nat.zero_le i) (by omega)]
    simp [get8, zeros]
  have hall : ∀ j < 15, getLE 4 (zeros 60) (4 * j) = 0 := by decide
  exact (getLE_congr hzeros).trans (hall j hj)

/-- What `deleteInode` gives back of a link whose last three pointers are none. -/
theorem Link.deleteInode_words (hbs : FormatSize bs) (henv : env.Sound) (h : Link env target b r)
    (hpos : 0 < target.length) (hlen : target.length < bs) (hblocks : linkBlocks target b r ≠ [])
    (hwords : ∀ j ∈ [12, 13, 14], r.inode.directBlock j = 0)
    (hfirst : r.inode.directBlock 0 ≠ 0 → env.refused (r.inode.directBlock 0) = none) :
    ∃ r', deleteInode env.toEnv r = .ok r' ∧ r'.taken = r.taken ∧
      r'.freed = r.freed ++
        ((if r.inode.directBlock 0 = 0 then [] else [r.inode.directBlock 0]) ++ aclBlocks r) := by
  have hacl : r.inode.fileAcl ≠ 0 → env.refused r.inode.fileAcl = none := fun hne =>
    (h.works _ (fileAcl_mem_linkBlocks hne)).2.1
  unfold deleteInode
  rw [h.truncate_released hbs hpos hlen hblocks, releaseInodeBlock_first]
  by_cases hzero : r.inode.directBlock 0 = 0
  · obtain ⟨r', hfree, hfreed, htaken⟩ :=
      @freeInode_acl bs env.toEnv (r.setSize 0) h.extents hwords hacl henv.ino
    rw [if_pos hzero, if_pos hzero]
    exact ⟨r', hfree, htaken, hfreed⟩
  · rw [if_neg hzero, if_neg hzero, freeBlock_eq (hfirst hzero)]
    have hkept : ∀ j ∈ [12, 13, 14], (r.inode.setDirectBlock 0 0).directBlock j = 0 := by
      intro j hj
      have hne : j ≠ 0 := by
        rintro rfl
        simp at hj
      rw [directBlock_set_of_ne hne]
      exact hwords j hj
    obtain ⟨r', hfree, hfreed, htaken⟩ :=
      @freeInode_acl bs env.toEnv
        (({ r with inode := r.inode.setDirectBlock 0 0 } : Ref bs).given env.toEnv
          (r.inode.directBlock 0) |>.setSize 0) h.extents hkept hacl henv.ino
    refine ⟨r', hfree, htaken, ?_⟩
    rw [hfreed, ← List.append_assoc]
    rfl

/-- The end of a link with a long target. -/
theorem Link.givesBack_long (hbs : FormatSize bs) (henv : env.Sound) (h : Link env target b r)
    (hlen : target.length < bs) (hlong : 60 ≤ target.length) :
    GivesBack env r ↔ b < 2 ^ 32 := by
  have hpos : 0 < target.length := Nat.lt_of_lt_of_le (by decide) hlong
  have hlink : linkBlocks target b r = [b] ++ aclBlocks r := by
    rw [linkBlocks, targetBlocks_long hlong]
  have hblocks : linkBlocks target b r ≠ [] := by
    rw [hlink]
    exact List.cons_ne_nil _ _
  have htaken := h.taken
  rw [hlink] at htaken
  have hword := h.first_word hlong
  constructor
  · rintro ⟨r', hdelete, hperm⟩
    -- the pointer has the number cut to 32 bits, and another block is given back
    by_contra hlarge
    have hfirst : r.inode.directBlock 0 ≠ 0 → env.refused (r.inode.directBlock 0) = none := by
      intro hne
      have htrunc := hdelete
      unfold deleteInode at htrunc
      rw [h.truncate_released hbs hpos hlen hblocks, releaseInodeBlock_first, if_neg hne] at htrunc
      obtain ⟨r₁, htrunc, -⟩ := bind_ok htrunc
      obtain ⟨r₂, hfree, -⟩ := bind_ok htrunc
      unfold freeBlock at hfree
      cases hrefused : env.refused (r.inode.directBlock 0) with
      | none => rfl
      | some e =>
          rw [hrefused] at hfree
          cases hfree
    obtain ⟨r₁, hdelete', htaken', hfreed'⟩ := h.deleteInode_words hbs henv hpos hlen hblocks
      (h.other_words hlong) hfirst
    rw [hdelete] at hdelete'
    cases hdelete'
    rw [hfreed', htaken'] at hperm
    have hcancel := (List.perm_append_left_iff r.freed).mp (hperm.trans htaken)
    have hblock := (List.perm_append_right_iff (aclBlocks r)).mp hcancel
    split at hblock
    · exact absurd hblock.length_eq (by simp)
    · have heq := List.perm_singleton.mp hblock
      have hsame : r.inode.directBlock 0 = b := List.singleton_inj.mp heq
      have hlt : b % 2 ^ 32 < 2 ^ 32 := Nat.mod_lt _ (by decide)
      omega
  · intro hsmall
    have hdirect : r.inode.directBlock 0 = b := hword.trans (Nat.mod_eq_of_lt hsmall)
    have hmem : b ∈ linkBlocks target b r := by
      rw [hlink]
      exact List.mem_cons_self
    have hfirst : r.inode.directBlock 0 ≠ 0 → env.refused (r.inode.directBlock 0) = none :=
      fun _ => hdirect ▸ (h.works b hmem).2.1
    obtain ⟨r', hdelete, htaken', hfreed'⟩ := h.deleteInode_words hbs henv hpos hlen hblocks
      (h.other_words hlong) hfirst
    refine ⟨r', hdelete, ?_⟩
    rw [htaken', hfreed', hdirect, if_neg (h.data hlong).1]
    exact htaken.symm

/-- The end of a short link without a block. -/
theorem Link.givesBack_plain (henv : env.Sound) (h : Link env target b r)
    (hpos : 0 < target.length) (hshort : target.length < 60) (hacl : r.inode.fileAcl = 0) :
    GivesBack env r := by
  have hnone : linkBlocks target b r = [] := by
    rw [linkBlocks, targetBlocks_short hshort, aclBlocks_none hacl]
    rfl
  obtain ⟨r', hfree, hfreed, htaken⟩ := @freeInode_acl bs env.toEnv
    (({ r with
      inode := { r.inode with blocks := patch r.inode.blocks 0 60 fun _ => 0 } } : Ref bs).setSize 0)
    h.extents (fun j hj => directBlock_zeros j (by simp at hj; omega))
    (fun hne => absurd hacl hne) henv.ino
  refine ⟨r', ?_, ?_⟩
  · unfold deleteInode
    rw [h.truncate_short hpos hshort hnone]
    exact hfree
  · have hperm := h.taken
    rw [hnone, List.append_nil] at hperm
    have hkept : r'.freed = r.freed := by
      rw [hfreed]
      change r.freed ++ aclBlocks r = r.freed
      rw [aclBlocks_none hacl, List.append_nil]
    rw [hkept, htaken]
    exact hperm.symm

/-- The end of a short link with a block of attributes. -/
theorem Link.givesBack_attr (hbs : FormatSize bs) (henv : env.Sound) (h : Link env target b r)
    (hpos : 0 < target.length) (hshort : target.length < 60) (hacl : r.inode.fileAcl ≠ 0) :
    GivesBack env r ↔ ∀ j ∈ endWords, targetWord target j = 0 := by
  have hlen : target.length < bs := Nat.lt_of_lt_of_le hshort (le_trans (by decide) hbs.1)
  have hlink : linkBlocks target b r = aclBlocks r := by
    rw [linkBlocks, targetBlocks_short hshort, List.nil_append]
  have hblocks : linkBlocks target b r ≠ [] := by
    rw [hlink, aclBlocks_some hacl]
    exact List.cons_ne_nil _ _
  have hword : ∀ j, r.inode.directBlock j = targetWord target j := by
    intro j
    rw [Inode.directBlock, h.bytes, linkBytes, if_pos hshort]
    rfl
  have htaken := h.taken
  rw [hlink] at htaken
  constructor
  · rintro ⟨r', hdelete, hperm⟩ j hj
    by_contra hne
    have hcount : r.taken.length = r.freed.length + 1 := by
      rw [htaken.length_eq, List.length_append, aclBlocks_some hacl, List.length_singleton]
    unfold deleteInode at hdelete
    rw [h.truncate_released hbs hpos hlen hblocks, releaseInodeBlock_first] at hdelete
    -- taken: one block. Given back: the attribute block, and one for the word
    by_cases hzero : r.inode.directBlock 0 = 0
    · rw [if_pos hzero] at hdelete
      have hgives := @freeInode_gives bs env.toEnv (r.setSize 0) r' h.extents hacl hdelete
      have hlast : j ∈ [12, 13, 14] := by
        rcases List.mem_cons.mp hj with rfl | hlast
        · exact absurd ((hword 0).symm.trans hzero) hne
        · exact hlast
      have hmore : r.freed.length + 2 ≤ r'.freed.length :=
        hgives.2.2 j hlast fun hnull => hne ((hword j).symm.trans hnull)
      have hless := hperm.length_eq
      rw [hgives.1] at hless
      change r'.freed.length = r.taken.length at hless
      omega
    · rw [if_neg hzero] at hdelete
      obtain ⟨r₁, htrunc, hfree⟩ := bind_ok hdelete
      obtain ⟨r₂, hrelease, htrunc⟩ := bind_ok htrunc
      cases htrunc
      have hstate := freeBlock_ok hrelease
      have hacl₂ : (r₂.setSize 0).inode.fileAcl ≠ 0 := hstate ▸ hacl
      have hextents₂ : (r₂.setSize 0).inode.extents = false := hstate ▸ h.extents
      have hfreed₂ : (r₂.setSize 0).freed = r.freed ++ [r.inode.directBlock 0] := hstate ▸ rfl
      have htaken₂ : (r₂.setSize 0).taken = r.taken := hstate ▸ rfl
      obtain ⟨hsame, hmore, -⟩ := freeInode_gives hextents₂ hacl₂ hfree
      have hless := hperm.length_eq
      rw [hsame, htaken₂] at hless
      rw [hfreed₂, List.length_append, List.length_singleton] at hmore
      omega
  · intro hzero
    have hnone : ∀ j ∈ endWords, r.inode.directBlock j = 0 := fun j hj =>
      (hword j).trans (hzero j hj)
    have hfirst : r.inode.directBlock 0 = 0 := hnone 0 (by decide)
    obtain ⟨r', hdelete, htaken', hfreed'⟩ := h.deleteInode_words hbs henv hpos hlen hblocks
      (fun j hj => hnone j (List.mem_cons_of_mem _ hj)) (fun hne => absurd hfirst hne)
    refine ⟨r', hdelete, ?_⟩
    rw [htaken', hfreed', if_pos hfirst]
    exact htaken.symm

/-- Block 9 is the one that can be had. -/
def nineEnv : LinkEnv 1024 where
  extents := true
  unread _ := none
  noBuffer _ := none
  refused _ := none
  groupGoal := .ok 8
  alloc s _ := if s.inUse 9 then .error Errno.ENOSPC else .ok 9
  holds _ := true
  removeSpace r _ := .ok r
  freeIno := none
  names := Ext4b.smallEnv
  group := 0
  noMemory := false
  unwritten _ := none

def emptySpace : Space 1024 where
  medium _ := zeros 1024
  cached _ := none
  dirty _ := false
  inUse _ := false
  taken := []
  freed := []

theorem nineEnv_sound : nineEnv.Sound where
  free s _ b hb := by
    unfold nineEnv at hb
    dsimp only at hb
    split at hb
    · cases hb
    · next hfree =>
      cases hb
      exact ⟨by decide, Bool.eq_false_of_not_eq_true hfree⟩
  works _ _ _ _ := ⟨rfl, rfl⟩
  holds _ _ := rfl
  ino := rfl

end Blockmap

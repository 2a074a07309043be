import Mathlib.Data.List.Count
import OpenExt4.Blockmap.Blocks

set_option autoImplicit false

/-! # The end of a link

What `ext4_fs_truncate_inode` and `ext4_fs_free_inode` give back of the inode of a link. The
truncation takes the first pointer of any link that has a block for one, and so the first bytes of
a short target where the block is the one of the attributes; the release takes the last three. -/

namespace Blockmap

open Bytes

variable {bs l : ℕ} {env : Env bs} {r r' : Ref bs} {b p : ℕ}

/-! ## How much is given back -/

/-- At least `k` blocks are given back; of the pointers of the inode only `w` may change. -/
structure Gives (r r' : Ref bs) (k w : ℕ) : Prop where
  freed : r.freed.length + k ≤ r'.freed.length
  taken : r'.taken = r.taken
  acl : r'.inode.fileAcl = r.inode.fileAcl
  extents : r'.inode.extents = r.inode.extents
  words : ∀ j, j ≠ w → r'.inode.directBlock j = r.inode.directBlock j

theorem Gives.refl (r : Ref bs) (w : ℕ) : Gives r r 0 w :=
  ⟨Nat.le_refl _, rfl, rfl, rfl, fun _ _ => rfl⟩

theorem Gives.trans {r₁ : Ref bs} {k k' w : ℕ} (h : Gives r r₁ k w) (h' : Gives r₁ r' k' w) :
    Gives r r' (k + k') w where
  freed := by
    have hle := h.freed
    have hle' := h'.freed
    omega
  taken := h'.taken.trans h.taken
  acl := h'.acl.trans h.acl
  extents := h'.extents.trans h.extents
  words j hj := (h'.words j hj).trans (h.words j hj)

theorem Gives.mono {k k' w : ℕ} (h : Gives r r' k w) (hle : k' ≤ k) : Gives r r' k' w :=
  ⟨(Nat.add_le_add_left hle _).trans h.freed, h.taken, h.acl, h.extents, h.words⟩

theorem given_gives (r : Ref bs) (b w : ℕ) : Gives r (r.given env b) 1 w where
  freed := by
    rw [Ref.given, List.length_append, List.length_singleton]
  taken := rfl
  acl := rfl
  extents := rfl
  words _ _ := rfl

theorem freeEach_gives {f : Ref bs → ℕ → Result bs (Ref bs)} {ps : List ℕ} {w : ℕ}
    (hf : ∀ r r' p, f r p = .ok r' → Gives r r' 0 w) (h : freeEach f ps r = .ok r') :
    Gives r r' 0 w := by
  induction ps generalizing r with
  | nil =>
      cases h
      exact Gives.refl _ w
  | cons p ps ih =>
      unfold freeEach at h
      split at h
      · exact ih h
      · obtain ⟨r₁, hfirst, hrest⟩ := bind_ok h
        exact (hf _ r₁ p hfirst).trans (ih hrest)

theorem freeTables_gives (w : ℕ) (h : freeTables env l r p = .ok r') : Gives r r' 1 w := by
  induction l generalizing r r' p with
  | zero =>
      rw [freeBlock_ok h]
      exact given_gives r p w
  | succ l ih =>
      obtain ⟨⟨data, r₁⟩, hgot, h⟩ := bind_ok h
      obtain ⟨r₂, heach, hfree⟩ := bind_ok h
      have hread : Gives r r₁ 0 w := by
        rw [(getBlock_ok hgot).2]
        exact ⟨Nat.le_refl _, rfl, rfl, rfl, fun _ _ => rfl⟩
      have hinner : Gives r₁ r₂ 0 w :=
        freeEach_gives (fun _ _ _ hok => (ih hok).mono (Nat.zero_le 1)) heach
      rw [freeBlock_ok hfree]
      exact (hread.trans hinner).trans (given_gives r₂ p w)

/-- What is behind one of the last three pointers. -/
theorem freeIndirect_gives (h : freeIndirect env l r = .ok r') :
    Gives r r' (if r.inode.indirectBlock l = 0 then 0 else 1) (l + 12) := by
  unfold freeIndirect at h
  simp only at h
  split at h
  · next hzero =>
      cases h
      rw [if_pos hzero]
      exact Gives.refl r _
  · next hne =>
      obtain ⟨r₁, htables, h⟩ := bind_ok h
      cases h
      rw [if_neg hne]
      have hgives := freeTables_gives (l + 12) htables
      exact ⟨hgives.freed, hgives.taken, hgives.acl, hgives.extents, fun j hj =>
        (directBlock_set_of_ne hj).trans (hgives.words j hj)⟩

theorem freeAcl_gives (h : freeAcl env r = .ok r') :
    r.freed.length + (if r.inode.fileAcl = 0 then 0 else 1) ≤ r'.freed.length ∧
      r'.taken = r.taken := by
  unfold freeAcl at h
  simp only at h
  split at h
  · next hzero =>
      cases h
      rw [if_pos hzero]
      exact ⟨Nat.le_refl _, rfl⟩
  · next hne =>
      obtain ⟨r₁, hfree, h⟩ := bind_ok h
      cases h
      rw [if_neg hne, freeBlock_ok hfree]
      have hgives : Gives r (r.given env r.inode.fileAcl) 1 0 := given_gives r _ 0
      exact ⟨hgives.freed, rfl⟩

/-- The pointers that the end of a link takes for block numbers. -/
def endWords : List ℕ := [0, 12, 13, 14]

/-- An inode without extents gives back a block for each of its last three pointers, and the block
    of its attributes. -/
theorem freeInode_gives (hextents : r.inode.extents = false) (hacl : r.inode.fileAcl ≠ 0)
    (h : freeInode env r = .ok r') :
    r'.taken = r.taken ∧ r.freed.length + 1 ≤ r'.freed.length ∧
      ∀ j ∈ [12, 13, 14], r.inode.directBlock j ≠ 0 → r.freed.length + 2 ≤ r'.freed.length := by
  obtain ⟨r₁, hmap, h⟩ := bind_ok h
  obtain ⟨r₂, hattr, h⟩ := bind_ok h
  have hlast : r' = r₂ := by
    cases hino : env.freeIno with
    | some e =>
        rw [hino] at h
        cases h
    | none =>
        rw [hino] at h
        cases h
        rfl
  rw [freeMap, mappedByExtents, hextents, Bool.and_false, if_neg Bool.false_ne_true] at hmap
  obtain ⟨s₁, hone, hmap⟩ := bind_ok hmap
  obtain ⟨s₂, htwo, hthree⟩ := bind_ok hmap
  have gone := freeIndirect_gives hone
  have gtwo := freeIndirect_gives htwo
  have gthree := freeIndirect_gives hthree
  obtain ⟨hfreed, htaken⟩ := freeAcl_gives hattr
  rw [gthree.acl, gtwo.acl, gone.acl, if_neg hacl] at hfreed
  have honeLe := gone.freed
  have htwoLe := gtwo.freed
  have hthreeLe := gthree.freed
  -- an earlier tree leaves the pointers to the later ones alone
  have htwoWord : s₁.inode.indirectBlock 1 = r.inode.directBlock 13 := gone.words 13 (by decide)
  have hthreeWord : s₂.inode.indirectBlock 2 = r.inode.directBlock 14 :=
    (gtwo.words 14 (by decide)).trans (gone.words 14 (by decide))
  rw [htwoWord] at htwoLe
  rw [hthreeWord] at hthreeLe
  rw [hlast]
  refine ⟨?_, by omega, fun j hj hne => ?_⟩
  · rw [htaken, gthree.taken, gtwo.taken, gone.taken]
  · simp only [List.mem_cons, List.not_mem_nil, or_false] at hj
    rcases hj with rfl | rfl | rfl
    · rw [if_neg (show r.inode.indirectBlock 0 ≠ 0 from hne)] at honeLe
      omega
    · rw [if_neg hne] at htwoLe
      omega
    · rw [if_neg hne] at hthreeLe
      omega

/-! ## What is given back -/

/-- The block of the attributes, if there is one. -/
def aclBlocks (r : Ref bs) : List ℕ := if r.inode.fileAcl = 0 then [] else [r.inode.fileAcl]

/-- An inode whose last three pointers are none gives back the block of its attributes. -/
theorem freeInode_acl (hextents : r.inode.extents = false)
    (hwords : ∀ j ∈ [12, 13, 14], r.inode.directBlock j = 0)
    (hacl : r.inode.fileAcl ≠ 0 → env.refused r.inode.fileAcl = none) (hino : env.freeIno = none) :
    ∃ r', freeInode env r = .ok r' ∧ r'.freed = r.freed ++ aclBlocks r ∧ r'.taken = r.taken := by
  have hnone : ∀ l < 3, freeIndirect env l r = .ok r := by
    intro l hl
    have hzero : r.inode.indirectBlock l = 0 := hwords (l + 12) (by simp; omega)
    rw [freeIndirect, if_pos hzero]
  have hmap : freeMap env r = .ok r := by
    rw [freeMap, mappedByExtents, hextents, Bool.and_false, if_neg Bool.false_ne_true,
      hnone 0 (by decide)]
    exact (congrArg (· >>= freeIndirect env 2) (hnone 1 (by decide))).trans (hnone 2 (by decide))
  unfold freeInode
  rw [hmap, hino]
  by_cases hzero : r.inode.fileAcl = 0
  · have hattr : freeAcl env r = .ok r := if_pos hzero
    refine ⟨r, ?_, ?_, rfl⟩
    · exact congrArg (· >>= Except.ok) hattr
    · rw [aclBlocks, if_pos hzero, List.append_nil]
  · have hattr : freeAcl env r = .ok { r.given env r.inode.fileAcl with
        inode := { (r.given env r.inode.fileAcl).inode with fileAcl := 0 } } := by
      rw [freeAcl, if_neg hzero, freeBlock_eq (hacl hzero)]
      rfl
    refine ⟨_, congrArg (· >>= Except.ok) hattr, ?_, rfl⟩
    rw [aclBlocks, if_neg hzero]
    rfl

end Blockmap

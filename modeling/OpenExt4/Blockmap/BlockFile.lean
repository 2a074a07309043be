import OpenExt4.Blockmap.FileEnd

set_option autoImplicit false

/-! # Files with block pointers

A file whose map holds what it took and did not give back, and nothing behind its end. An append, a
truncation and the release of the file keep it so, whatever they end in. -/

namespace Blockmap

open Bytes TableTree

variable {bs : ℕ} {env : Env bs} {r r₁ r' : Ref bs} {b k first n newSize : ℕ}

/-- The blocks that `size` bytes take. -/
def fileBlocks (bs size : ℕ) : ℕ := (size + bs - 1) / bs

/-- A count of blocks that the map and the 32 bits of a logical block hold. -/
def Fitting (bs n : ℕ) : Prop := n ≤ blockLimits bs 3 ∧ n < 2 ^ 32

/-- **A file with block pointers.** -/
structure BlockFile (env : Env bs) (r : Ref bs) : Prop where
  canTruncate : r.inode.canTruncate = true
  mapped : mappedByExtents env r.inode = false
  type : r.inode.type ≠ .SOFTLINK
  owns : Owns env r []
  fits : Fitting bs (fileBlocks bs r.inode.size)
  past : ∀ k < blockLimits bs 3, fileBlocks bs r.inode.size ≤ k → r.blockAt k = 0

theorem canTruncate_same {a c : Inode} (h : SameInode a c) : c.canTruncate = a.canTruncate := by
  rw [Inode.canTruncate, Inode.canTruncate, h.append, h.immutable, h.type]

theorem mapped_same {a c : Inode} (h : SameInode a c) :
    mappedByExtents env c = mappedByExtents env a := by
  rw [mappedByExtents, mappedByExtents, h.extents]

theorem blocksFor_eq (hfits : fileBlocks bs n < 2 ^ 32) : blocksFor bs n = fileBlocks bs n :=
  Nat.mod_eq_of_lt hfits

theorem fileBlocks_mono (hle : newSize ≤ n) : fileBlocks bs newSize ≤ fileBlocks bs n :=
  Nat.div_le_div_right (by omega)

/-! ## One block more -/

theorem Owns.shown {out : List ℕ} (h : Owns env r out) (hshown : Shown r r₁) : Owns env r₁ out := by
  have howned : r₁.owned out = r.owned out := by
    rw [Ref.owned, Ref.owned, nodes_shown hshown, aclBlocks, aclBlocks, hshown.inode]
  refine ⟨howned ▸ h.nodup, fun b hb => ?_, ?_⟩
  · rw [hshown.inUse]
    exact h.works b (howned ▸ hb)
  · rw [hshown.taken, hshown.freed, howned]
    exact h.balance

theorem Owns.resized {out : List ℕ} (h : Owns env r out) (size : ℕ) :
    Owns env (r.setSize size) out :=
  ⟨h.nodup, h.works, h.balance⟩

/-- The map and the size are as they were, up to tables. -/
structure Unchanged (r r' : Ref bs) : Prop where
  inode : SameInode r.inode r'.inode
  blockAt : ∀ k < blockLimits bs 3, r'.blockAt k = r.blockAt k

theorem BlockFile.unchanged (h : BlockFile env r) (hsame : Unchanged r r')
    (howns : Owns env r' []) : BlockFile env r' where
  canTruncate := (canTruncate_same hsame.inode).trans h.canTruncate
  mapped := (mapped_same hsame.inode).trans h.mapped
  type := by
    rw [hsame.inode.type]
    exact h.type
  owns := howns
  fits := by
    rw [hsame.inode.size]
    exact h.fits
  past k hk hle := by
    rw [hsame.inode.size] at hle
    rw [hsame.blockAt k hk]
    exact h.past k hk hle

theorem Unchanged.of_shown (hshown : Shown r r₁) : Unchanged r r₁ where
  inode := by
    rw [hshown.inode]
    exact SameInode.refl _
  blockAt _ hk := blockAt_shown hshown hk

/-- The file got block `b` at its end. -/
structure Appended (env : Env bs) (r r' : Ref bs) (b : ℕ) : Prop where
  fresh : Fresh env r b
  size : r'.inode.size = (fileBlocks bs r.inode.size + 1) * bs
  room : fileBlocks bs r.inode.size < blockLimits bs 3
  freed : r'.freed = r.freed
  blockAt : ∀ k < blockLimits bs 3,
    r'.blockAt k = if k = fileBlocks bs r.inode.size then b else r.blockAt k

theorem fileBlocks_mul (hpos : 0 < bs) (n : ℕ) : fileBlocks bs (n * bs) = n := by
  rw [fileBlocks, Nat.mul_comm, Nat.add_sub_assoc hpos, Nat.mul_add_div hpos,
    Nat.div_eq_of_lt (by omega), Nat.add_zero]

section Code

variable {e : Errno} {r₂ : Ref bs}

theorem appendInodeDblk_none (hnew : allocNew env r = .error (e, r₁)) :
    appendInodeDblk env r = .error (e, r₁) := by
  unfold appendInodeDblk
  dsimp only [Bind.bind, Except.bind]
  rw [hnew]

theorem appendInodeDblk_undone (hpos : 0 < bs) (hfits : fileBlocks bs r.inode.size < 2 ^ 32)
    (hnew : allocNew env r = .ok (b, r₁))
    (hset : setInodeDataBlockIndex env r₁ (fileBlocks bs r.inode.size) b = .error (e, r₂))
    (hrefused : env.refused b = none) : appendInodeDblk env r = .error (e, r₂.given env b) := by
  unfold appendInodeDblk
  dsimp only [Bind.bind, Except.bind]
  rw [hnew, Nat.mul_div_cancel _ hpos, ← fileBlocks, Nat.mod_eq_of_lt hfits]
  dsimp only
  rw [hset]
  dsimp only
  rw [freeBlock_eq hrefused]

theorem appendInodeDblk_done (hpos : 0 < bs) (hfits : fileBlocks bs r.inode.size < 2 ^ 32)
    (hnew : allocNew env r = .ok (b, r₁))
    (hset : setInodeDataBlockIndex env r₁ (fileBlocks bs r.inode.size) b = .ok r₂) :
    appendInodeDblk env r = .ok (b, fileBlocks bs r.inode.size,
      r₂.setSize ((fileBlocks bs r.inode.size + 1) * bs)) := by
  unfold appendInodeDblk
  dsimp only [Bind.bind, Except.bind]
  rw [hnew, Nat.mul_div_cancel _ hpos, ← fileBlocks, Nat.mod_eq_of_lt hfits]
  dsimp only
  rw [hset, Nat.succ_mul]

end Code

/-- **An append** puts a new block at the end, or leaves the map and the size and owes nothing. -/
theorem BlockFile.append (henv : env.Fits) (hpos : 0 < bs) (h : BlockFile env r)
    (hroom : fileBlocks bs r.inode.size + 1 < 2 ^ 32) :
    (∃ b r', appendInodeDblk env r = .ok (b, fileBlocks bs r.inode.size, r') ∧
        Appended env r r' b ∧ BlockFile env r') ∨
      ∃ e r', appendInodeDblk env r = .error (e, r') ∧ Unchanged r r' ∧ BlockFile env r' := by
  have hfits := h.fits.2
  rcases allocNew_cases henv r with ⟨b, r₁, hnew, hshown, hfresh⟩ | ⟨e, r₁, hnew, hshown⟩
  -- the block is taken before it is mapped: for the time being it is owned outside of the map
  · have htaken := h.owns.taken hshown hfresh
    have hsame : Unchanged r (r₁.took env b) := by
      refine ⟨(Took.block hfresh hshown rfl rfl rfl (SameInode.refl _)).inode,
        fun k hk => ?_⟩
      rw [← blockAt_shown hshown hk]
      rfl
    have hhole : fileBlocks bs r.inode.size < blockLimits bs 3 →
        (r₁.took env b).blockAt (fileBlocks bs r.inode.size) = 0 := fun hk =>
      (hsame.blockAt _ hk).trans (h.past _ hk (Nat.le_refl _))
    rcases setInodeDataBlockIndex_spec henv htaken.kept hhole hfresh.ne_zero hfresh.small with
      ⟨hk, r₂, new, hset, hextended⟩ | ⟨e, r₂, new, hset, hextended⟩
    · have howns := htaken.put hfresh.ne_zero hextended
      have hinode := hsame.inode.trans hextended.took.inode
      have hblocks : ∀ k' < blockLimits bs 3, r₂.blockAt k' =
          if k' = fileBlocks bs r.inode.size then b else r.blockAt k' := by
        intro k' hk'
        rw [hextended.blockAt k' hk', hsame.blockAt k' hk']
        simp only [ne_eq, hfresh.ne_zero, not_false_eq_true, and_true]
      refine .inl ⟨b, _, appendInodeDblk_done hpos hfits hnew hset, ?_, ?_⟩
      · refine ⟨hfresh, rfl, hk, ?_, hblocks⟩
        exact hextended.took.freed.trans hshown.freed
      · refine ⟨?_, ?_, ?_, howns.resized _, ?_, fun k' hk' hle => ?_⟩
        · exact (canTruncate_same hinode).trans h.canTruncate
        · exact (mapped_same hinode).trans h.mapped
        · change r₂.inode.type ≠ _
          rw [hinode.type]
          exact h.type
        · change Fitting bs (fileBlocks bs ((fileBlocks bs r.inode.size + 1) * bs))
          rw [fileBlocks_mul hpos]
          exact ⟨hk, hroom⟩
        · change fileBlocks bs ((fileBlocks bs r.inode.size + 1) * bs) ≤ k' at hle
          rw [fileBlocks_mul hpos] at hle
          change r₂.blockAt k' = 0
          rw [hblocks k' hk', if_neg (by omega)]
          exact h.past k' hk' (by omega)
    -- the block is given back, the tables that came stay and are owned
    · have htables := htaken.tables hextended
      obtain ⟨howns, -, hblocks⟩ := htables.returned hfresh.ne_zero
      have hundone : Unchanged r (r₂.given env b) := by
        refine ⟨(hsame.inode.trans hextended.took.inode).trans ⟨rfl, rfl, rfl, rfl, rfl, rfl⟩,
          fun k hk => ?_⟩
        have hkept := hextended.blockAt k hk
        rw [if_neg fun hboth => hboth.2 rfl] at hkept
        rw [hblocks k hk, hkept, hsame.blockAt k hk]
      exact .inr ⟨e, _, appendInodeDblk_undone hpos hfits hnew hset hfresh.refused, hundone,
        h.unchanged hundone howns⟩
  · exact .inr ⟨e, r₁, appendInodeDblk_none hnew, Unchanged.of_shown hshown,
      h.unchanged (Unchanged.of_shown hshown) (h.owns.shown hshown)⟩

/-! ## Blocks fewer -/

/-- The blocks mapped from `first` on, for `n` logical blocks. -/
def Ref.between (r : Ref bs) (first n : ℕ) : List ℕ :=
  (List.range n).flatMap fun i => blockList (r.blockAt (first + i))

/-- They went, and nothing else. -/
structure Dropped (r r' : Ref bs) (first n : ℕ) : Prop where
  freed : r'.freed = r.freed ++ r.between first n
  taken : r'.taken = r.taken
  inode : SameInode r.inode r'.inode
  tables : r'.tables = r.tables
  blockAt : ∀ k < blockLimits bs 3,
    r'.blockAt k = if first ≤ k ∧ k < first + n then 0 else r.blockAt k

theorem Owns.cleared (h : Owns env r []) (hgone : Gone r r' (r.blockAt k))
    (hcleared : Cleared r r' k) : Owns env r' [] := by
  refine h.gone hgone ?_
  rw [Ref.owned, Ref.owned, aclBlocks_same hgone.inode, List.append_nil, List.append_assoc]
  refine (hcleared.nodes.append_right _).trans ?_
  rw [List.append_assoc]
  exact List.perm_append_comm.append_left r'.nodes

/-- The loop of the truncation. -/
theorem releaseBlocks_spec (howns : Owns env r []) (hlimit : first + n ≤ blockLimits bs 3)
    (hwidth : first + n ≤ 2 ^ 32) :
    ∃ r', releaseBlocks env first n r = .ok r' ∧ Owns env r' [] ∧ Dropped r r' first n := by
  induction n with
  | zero =>
      refine ⟨r, rfl, howns, (List.append_nil _).symm, rfl, SameInode.refl _, rfl, fun k _ => ?_⟩
      rw [if_neg (by omega)]
  | succ n ih =>
      obtain ⟨r₁, hrelease, howns₁, hdropped⟩ := ih (by omega) (by omega)
      have hk : first + n < blockLimits bs 3 := by omega
      obtain ⟨r', hlast, hgone, hcleared⟩ :=
        releaseInodeBlock_spec howns₁.kept.nodup howns₁.reads hk
      have hblock : r₁.blockAt (first + n) = r.blockAt (first + n) := by
        rw [hdropped.blockAt _ hk, if_neg (by omega)]
      refine ⟨r', ?_, howns₁.cleared hgone hcleared, ?_, ?_, ?_, ?_, fun k hk' => ?_⟩
      · rw [releaseBlocks, hrelease]
        change releaseInodeBlock env r₁ ((first + n) % 2 ^ 32) = _
        rw [Nat.mod_eq_of_lt (by omega)]
        exact hlast
      · rw [hgone.freed, hdropped.freed, hblock, Ref.between, Ref.between, List.range_succ,
          List.flatMap_append, List.flatMap_singleton, List.append_assoc]
      · rw [hgone.taken, hdropped.taken]
      · exact hdropped.inode.trans hgone.inode
      · rw [hcleared.tables, hdropped.tables]
      · rw [hcleared.blockAt k hk', hdropped.blockAt k hk']
        by_cases hlastBlock : k = first + n
        · rw [if_pos hlastBlock, if_pos (by omega)]
        · rw [if_neg hlastBlock]
          have hsame : (first ≤ k ∧ k < first + n) ↔ (first ≤ k ∧ k < first + (n + 1)) := by omega
          simp only [hsame]

/-- The file was cut to `newSize` bytes: the blocks behind went, in their order. -/
structure CutTo (r r' : Ref bs) (newSize : ℕ) : Prop where
  size : r'.inode.size = newSize
  freed : r'.freed = r.freed ++ r.between (fileBlocks bs newSize)
    (fileBlocks bs r.inode.size - fileBlocks bs newSize)
  taken : r'.taken = r.taken
  tables : r'.tables = r.tables
  blockAt : ∀ k < blockLimits bs 3,
    r'.blockAt k = if k < fileBlocks bs newSize then r.blockAt k else 0

theorem BlockFile.notMapped (h : BlockFile env r) : ¬ mappedByExtents env r.inode = true := by
  rw [h.mapped]
  exact Bool.false_ne_true

/-- A size that needs no block less changes nothing else. -/
theorem BlockFile.cutTo_same (h : BlockFile env r) (hsize : newSize = r.inode.size) :
    CutTo r r newSize where
  size := hsize.symm
  freed := by
    rw [hsize, Nat.sub_self]
    exact (List.append_nil _).symm
  taken := rfl
  tables := rfl
  blockAt k hk := by
    split
    · rfl
    · next hle =>
        rw [hsize] at hle
        exact h.past k hk (Nat.not_lt.mp hle)

/-- **A truncation** gives back exactly the blocks behind the new end, and keeps the others and
    every table. -/
theorem BlockFile.truncate (h : BlockFile env r) (hsize : newSize ≤ r.inode.size) :
    ∃ r', truncateInode env r newSize = .ok r' ∧ CutTo r r' newSize ∧ BlockFile env r' := by
  have hmono := @fileBlocks_mono bs r.inode.size newSize hsize
  have hfits := h.fits.2
  have hcan : ¬ (!r.inode.canTruncate) = true := by
    rw [h.canTruncate]
    decide
  unfold truncateInode
  rw [if_neg hcan]
  by_cases hsame : r.inode.size = newSize ∧ (newSize ≠ 0 ∨ r.inode.blocksCount = 0)
  · rw [if_pos hsame]
    exact ⟨r, rfl, h.cutTo_same hsame.1.symm, h⟩
  · rw [if_neg hsame, if_neg (Nat.not_lt.mpr hsize), if_neg fun hlink => h.type hlink.1,
      blocksFor_eq (Nat.lt_of_le_of_lt hmono hfits), blocksFor_eq hfits, if_neg h.notMapped]
    -- the count of blocks to release wraps in 32 bits, but not for a file that fits
    have hdiff : (fileBlocks bs r.inode.size + 2 ^ 32 - fileBlocks bs newSize) % 2 ^ 32 =
        fileBlocks bs r.inode.size - fileBlocks bs newSize := by omega
    have hlimit := h.fits.1
    obtain ⟨r₁, hrelease, howns, hdropped⟩ := @releaseBlocks_spec bs env r
      (fileBlocks bs newSize) (fileBlocks bs r.inode.size - fileBlocks bs newSize) h.owns
      (by omega) (by omega)
    have hblocks : ∀ k < blockLimits bs 3,
        r₁.blockAt k = if k < fileBlocks bs newSize then r.blockAt k else 0 := by
      intro k hk
      rw [hdropped.blockAt k hk]
      by_cases hkept : k < fileBlocks bs newSize
      · rw [if_pos hkept, if_neg (by omega)]
      · rw [if_neg hkept]
        split
        · rfl
        · exact h.past k hk (by omega)
    rw [hdiff, hrelease]
    refine ⟨r₁.setSize newSize, rfl,
      ⟨rfl, hdropped.freed, hdropped.taken, hdropped.tables, hblocks⟩,
      ⟨?_, ?_, ?_, howns.resized _, ?_, fun k hk hle => ?_⟩⟩
    · exact (canTruncate_same hdropped.inode).trans h.canTruncate
    · exact (mapped_same hdropped.inode).trans h.mapped
    · change r₁.inode.type ≠ _
      rw [hdropped.inode.type]
      exact h.type
    · change Fitting bs (fileBlocks bs newSize)
      exact ⟨by omega, by omega⟩
    · exact (hblocks k hk).trans (if_neg (Nat.not_lt.mpr hle))

/-! ## The end -/

/-- **The end of a file** gives back all that it took, each block once. -/
theorem BlockFile.gone (hino : env.freeIno = none) (hpos : 0 < bs) (h : BlockFile env r) :
    ∃ r', deleteInode env r = .ok r' ∧ r'.taken = r.taken ∧ r'.freed.Perm r'.taken := by
  obtain ⟨r₁, htruncate, hcut, hfile⟩ := h.truncate (Nat.zero_le _)
  have hzero : fileBlocks bs 0 = 0 := by
    rw [fileBlocks]
    exact Nat.div_eq_of_lt (by omega)
  have hempty : ∀ k < blockLimits bs 3, r₁.blockAt k = 0 := by
    intro k hk
    rw [hcut.blockAt k hk, hzero, if_neg (Nat.not_lt_zero k)]
  have hnodes : r₁.nodes = r₁.tables := by
    refine List.flatMap_congr fun j hj => nodes_eq_tables fun off hoff => ?_
    have hplaced : Placed bs (firstBlock bs j + off) j off := ⟨List.mem_range.mp hj, hoff, rfl⟩
    exact (hplaced.blockAt r₁).symm.trans (hempty _ hplaced.lt)
  have howned : r₁.owned [] = r₁.tables ++ aclBlocks r₁ := by
    rw [Ref.owned, hnodes, List.append_nil]
  have hworks : ∀ b ∈ r₁.tables ++ aclBlocks r₁, env.unread b = none ∧ env.refused b = none := by
    intro b hb
    rw [← howned] at hb
    obtain ⟨hunread, hrefused, -⟩ := hfile.owns.works b hb
    exact ⟨hunread, hrefused⟩
  have hnodup := hfile.owns.nodup
  rw [howned] at hnodup
  obtain ⟨r', hfree, htaken, hperm⟩ := freeInode_spec hino hfile.mapped hnodup.of_append_left
    (fun t ht => hworks t (List.mem_append_left _ ht)) fun hne => by
      refine (hworks r₁.inode.fileAcl (List.mem_append_right _ ?_)).2
      rw [aclBlocks, if_neg hne]
      exact List.mem_singleton_self _
  refine ⟨r', ?_, htaken.trans hcut.taken, ?_⟩
  · rw [deleteInode, htruncate]
    exact hfree
  · rw [htaken]
    have hbalance := hfile.owns.balance
    rw [howned] at hbalance
    exact hperm.trans hbalance.symm

end Blockmap

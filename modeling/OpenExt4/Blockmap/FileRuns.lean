import OpenExt4.Blockmap.BlockFile
import OpenExt4.Blockmap.Links

set_option autoImplicit false

/-! # Files with block pointers, from their making to their end

What may happen to such a file or directory: blocks are appended, also without success, it is cut,
its size is set over a hole or within its last block, it is looked up, it gets a block of
attributes or loses it, and other calls use the volume. -/

namespace Blockmap

open Bytes TableTree Transitions

variable {bs : ℕ} {env : LinkEnv bs} {s : Space bs} {r r₁ r' : Ref bs} {b k newSize : ℕ}
variable {type : Mode}

/-! ## What may happen -/

/-- The inode of a file or a directory as `ext4_fs_alloc_inode` fills it in where there are no
    extents; `taken` and `freed` are its own. -/
def newFile (type : Mode) (s : Space bs) : Ref bs where
  toSpace := { s with taken := [], freed := [] }
  inode := ⟨type, false, false, false, 0, 0, 0, zeros 60⟩

inductive FileEvent (bs : ℕ) where
  | append
  | truncate (newSize : ℕ)
  | setSize (size : ℕ)
  | lookup (iblock : ℕ)
  | setAttr
  | removeAttr
  | others (s : Space bs)

/-- The state that a call leaves. -/
def leaves {α : Type} (state : α → Ref bs) : Result bs α → Ref bs
  | .ok a => state a
  | .error (_, r) => r

/-- The file after other calls used the volume. -/
def Ref.besides (r : Ref bs) (s : Space bs) : Ref bs :=
  { r with toSpace := { s with taken := r.taken, freed := r.freed } }

def fileStep (env : LinkEnv bs) (r : Ref bs) : FileEvent bs → Option (Ref bs)
  | .append => some (leaves (fun a => a.2.2) (appendInodeDblk env.toEnv r))
  | .truncate newSize => some (leaves id (truncateInode env.toEnv r newSize))
  | .setSize size => some (r.setSize size)
  | .lookup iblock => some (leaves Prod.snd (getInodeDblkIdx env.toEnv r iblock))
  | .setAttr => some (leaves id (tryAllocBlock env r))
  | .removeAttr => some (tryFreeBlock env r)
  | .others s => some (r.besides s)

/-- Logical blocks stay within 32 bits, a size is set behind the last block or in it, and other
    calls leave the blocks of the file in use and its tables alone. -/
def FileFair (r : Ref bs) : FileEvent bs → Prop
  | .append => fileBlocks bs r.inode.size + 1 < 2 ^ 32
  | .setSize size =>
      fileBlocks bs r.inode.size ≤ fileBlocks bs size ∧ Fitting bs (fileBlocks bs size)
  | .others s => ∀ b, r.Has b → s.inUse b = true ∧ (b ∈ r.tables → s.look b = r.look b)
  | _ => True

/-- A run of such a file from its making on. -/
def FileRun (env : LinkEnv bs) (type : Mode) (s : Space bs) (r : Ref bs) : Prop :=
  Run (fileStep env) FileFair (newFile type s) r

/-! ## What a file is -/

/-- A file as its users see it: its size, and the block of each logical one; `0` for a hole. -/
structure FileMap where
  size : ℕ
  block : ℕ → ℕ

def Ref.fileMap (r : Ref bs) : FileMap where
  size := r.inode.size
  block k := if k < blockLimits bs 3 then r.blockAt k else 0

/-- What an event does to it. An append that fails does nothing; one that succeeds puts a block
    that is nowhere in the file behind the last one. -/
def FileMap.Step (m : FileMap) : FileEvent bs → FileMap → Prop
  | .append, m' => m' = m ∨
      ∃ b ≠ 0, (∀ k, m.block k ≠ b) ∧ fileBlocks bs m.size < blockLimits bs 3 ∧
        m' = ⟨(fileBlocks bs m.size + 1) * bs, Function.update m.block (fileBlocks bs m.size) b⟩
  | .truncate newSize, m' => m' =
      if newSize ≤ m.size then
        ⟨newSize, fun k => if k < fileBlocks bs newSize then m.block k else 0⟩
      else m
  | .setSize size, m' => m' = ⟨size, m.block⟩
  | _, m' => m' = m

/-! ## What stays -/

theorem blockFile_new (hpos : 0 < bs) (htype : type = .FILE ∨ type = .DIRECTORY) :
    BlockFile env.toEnv (newFile type s) := by
  have hroot : ∀ j, (newFile type s).inode.directBlock j = 0 := by
    intro j
    have hzeros : ∀ w o, getLE w (zeros 60) o = 0 := by
      intro w
      induction w with
      | zero => exact fun _ => rfl
      | succ w ih =>
          intro o
          have hbyte : get8 (zeros 60) o = 0 := by
            unfold get8 zeros
            split <;> rfl
          rw [getLE, hbyte, ih]
          rfl
    exact hzeros 4 _
  have hnodes : (newFile type s).nodes = [] := by
    refine List.flatMap_eq_nil_iff.mpr fun j _ => ?_
    rw [Ref.rootNodes, hroot, nodes_null]
  have howned : (newFile type s).owned [] = [] := by
    rw [Ref.owned, hnodes]
    rfl
  have hempty : fileBlocks bs (newFile type s).inode.size = 0 := by
    change (0 + bs - 1) / bs = 0
    exact Nat.div_eq_of_lt (by omega)
  refine ⟨?_, ?_, ?_, ⟨?_, ?_, ?_⟩, ?_, fun k hk _ => ?_⟩
  · rcases htype with rfl | rfl <;> rfl
  · change (env.extents && false) = false
    exact Bool.and_false _
  · rcases htype with rfl | rfl
    · exact fun heq => absurd heq (by decide : Mode.FILE ≠ Mode.SOFTLINK)
    · exact fun heq => absurd heq (by decide : Mode.DIRECTORY ≠ Mode.SOFTLINK)
  · rw [howned]
    exact List.nodup_nil
  · rw [howned]
    exact fun b hb => absurd hb List.not_mem_nil
  · rw [howned]
    exact List.Perm.refl _
  · rw [hempty]
    exact ⟨Nat.zero_le _, by decide⟩
  · obtain ⟨j, off, hplaced⟩ := exists_placed hk
    rw [hplaced.blockAt, Ref.rootLeaf, hroot, leafAt_null]

/-- What the file owns it took and did not give back. -/
theorem Owns.has (h : Owns env.toEnv r []) (hb : b ∈ r.owned []) : r.Has b := by
  have hcount := h.balance.count_eq b
  rw [List.count_append] at hcount
  have hpos := List.count_pos_iff.mpr hb
  unfold Ref.Has
  omega

/-- The other trees and tables are as they were, so the map is. -/
theorem map_kept (hinode : r'.inode.blocks = r.inode.blocks)
    (hlook : ∀ t ∈ r.tables, r'.look t = r.look t) :
    r'.nodes = r.nodes ∧ ∀ k < blockLimits bs 3, r'.blockAt k = r.blockAt k := by
  have hroot : ∀ j, r'.inode.directBlock j = r.inode.directBlock j := by
    intro j
    rw [Inode.directBlock, Inode.directBlock, hinode]
  have hagree : ∀ j < 15, Agree (bs / 4) r.heap r'.heap (j - 11) (r.inode.directBlock j) := by
    intro j hj t ht i _
    exact congrFun (heap_congr (hlook t (mem_tables_iff.mpr ⟨j, hj, ht⟩))) i
  constructor
  · refine List.flatMap_congr fun j hj => ?_
    rw [Ref.rootNodes, Ref.rootNodes, hroot, (hagree j (List.mem_range.mp hj)).nodes_eq]
  · intro k hk
    obtain ⟨j, off, hplaced⟩ := exists_placed hk
    rw [hplaced.blockAt, hplaced.blockAt, Ref.rootLeaf, Ref.rootLeaf, hroot,
      (hagree j hplaced.root).leafAt_eq hplaced.place]

/-- Other calls leave the map. -/
theorem BlockFile.others (h : BlockFile env.toEnv r) (hfair : FileFair r (.others s)) :
    BlockFile env.toEnv (r.besides s) ∧ Unchanged r (r.besides s) := by
  have hlook : ∀ t ∈ r.tables, (r.besides s).look t = r.look t := fun t ht =>
    (hfair t (h.owns.has (List.mem_append_left _ ((tables_sublist_nodes r).subset ht)))).2 ht
  obtain ⟨hnodes, hblocks⟩ := @map_kept bs r (r.besides s) rfl hlook
  have howned : (r.besides s).owned [] = r.owned [] := by
    rw [Ref.owned, hnodes]
    rfl
  have hsame : Unchanged r (r.besides s) := ⟨SameInode.refl _, hblocks⟩
  refine ⟨h.unchanged hsame ⟨?_, fun b hb => ?_, ?_⟩, hsame⟩
  · rw [howned]
    exact h.owns.nodup
  · rw [howned] at hb
    obtain ⟨hunread, hrefused, -⟩ := h.owns.works b hb
    exact ⟨hunread, hrefused, (hfair b (h.owns.has hb)).1⟩
  · rw [howned]
    exact h.owns.balance

/-! ## The block of the attributes -/

theorem BlockFile.setAttr (henv : env.toEnv.Fits) (h : BlockFile env.toEnv r) :
    BlockFile env.toEnv (leaves id (tryAllocBlock env r)) ∧
      (leaves id (tryAllocBlock env r)).inode.size = r.inode.size ∧
      ∀ k < blockLimits bs 3, (leaves id (tryAllocBlock env r)).blockAt k = r.blockAt k := by
  by_cases hzero : r.inode.fileAcl = 0
  · cases halloc : env.alloc r.toSpace env.group with
    | error e =>
        have hcode : tryAllocBlock env r = .error (e, r) := by
          rw [tryAllocBlock, if_neg (not_not.mpr hzero), allocBlock, halloc]
          rfl
        rw [hcode]
        exact ⟨h, rfl, fun _ _ => rfl⟩
    | ok b =>
        have hcode : tryAllocBlock env r = .ok { r.took env.toEnv b with
            inode := { (r.took env.toEnv b).inode with fileAcl := b } } := by
          rw [tryAllocBlock, if_neg (not_not.mpr hzero), allocBlock, halloc]
          rfl
        obtain ⟨hne, hfree⟩ := henv.free _ _ _ halloc
        obtain ⟨hunread, hrefused⟩ := henv.works _ _ _ halloc
        have htaken := h.owns.taken (Shown.refl r) ⟨hne, hfree, henv.small _ _ _ halloc,
          henv.buffer _ _ _ halloc, hunread, hrefused⟩
        -- the new block becomes the attribute block: the blocks owned are the same
        have howned : (r.took env.toEnv b).owned [b] = ({ r.took env.toEnv b with
            inode := { (r.took env.toEnv b).inode with fileAcl := b } } : Ref bs).owned [] := by
          have hbefore : aclBlocks (r.took env.toEnv b) = [] := if_pos hzero
          have hafter : aclBlocks ({ r.took env.toEnv b with
              inode := { (r.took env.toEnv b).inode with fileAcl := b } } : Ref bs) = [b] :=
            if_neg hne
          rw [Ref.owned, Ref.owned, hbefore, hafter]
          rfl
        rw [hcode]
        refine ⟨⟨h.canTruncate, h.mapped, h.type, ⟨?_, ?_, ?_⟩, h.fits, h.past⟩, rfl,
          fun _ _ => rfl⟩
        · exact howned ▸ htaken.nodup
        · exact howned ▸ htaken.works
        · exact howned ▸ htaken.balance
  · have hcode : tryAllocBlock env r = .ok r := if_pos hzero
    rw [hcode]
    exact ⟨h, rfl, fun _ _ => rfl⟩

theorem BlockFile.removeAttr (h : BlockFile env.toEnv r) :
    BlockFile env.toEnv (tryFreeBlock env r) ∧
      (tryFreeBlock env r).inode.size = r.inode.size ∧
      ∀ k < blockLimits bs 3, (tryFreeBlock env r).blockAt k = r.blockAt k := by
  by_cases hzero : r.inode.fileAcl = 0
  · have hcode : tryFreeBlock env r = r := if_pos hzero
    rw [hcode]
    exact ⟨h, rfl, fun _ _ => rfl⟩
  · have hacl : aclBlocks r = [r.inode.fileAcl] := if_neg hzero
    have hmem : r.inode.fileAcl ∈ r.owned [] := by
      rw [Ref.owned, hacl]
      exact List.mem_append_right _ (List.mem_singleton_self _)
    have hcode : tryFreeBlock env r =
        ({ r with inode := { r.inode with fileAcl := 0 } } : Ref bs).given env.toEnv
          r.inode.fileAcl := by
      unfold tryFreeBlock
      dsimp only
      rw [if_neg hzero, freeBlock_eq (h.owns.works _ hmem).2.1]
    have howned : ({ r with inode := { r.inode with fileAcl := 0 } } : Ref bs).owned
        [r.inode.fileAcl] = r.owned [] := by
      rw [Ref.owned, Ref.owned, hacl]
      rfl
    have howns : Owns env.toEnv ({ r with inode := { r.inode with fileAcl := 0 } } : Ref bs)
        [r.inode.fileAcl] :=
      ⟨howned ▸ h.owns.nodup, howned ▸ h.owns.works, howned ▸ h.owns.balance⟩
    obtain ⟨hback, -, hblocks⟩ := howns.returned hzero
    rw [hcode]
    refine ⟨⟨h.canTruncate, h.mapped, h.type, hback, h.fits, fun k hk hle => ?_⟩, rfl, hblocks⟩
    exact (hblocks k hk).trans (h.past k hk hle)

/-! ## Runs -/

theorem fileMap_block (hk : k < blockLimits bs 3) : r.fileMap.block k = r.blockAt k := if_pos hk

theorem fileMap_none (hk : ¬ k < blockLimits bs 3) : r.fileMap.block k = 0 := if_neg hk

theorem fileMap_eq (hsize : r'.inode.size = r.inode.size)
    (hblocks : ∀ k < blockLimits bs 3, r'.blockAt k = r.blockAt k) : r'.fileMap = r.fileMap := by
  have hmap : ∀ r : Ref bs, r.fileMap = ⟨r.inode.size, r.fileMap.block⟩ := fun _ => rfl
  have hblock : r'.fileMap.block = r.fileMap.block := by
    funext k
    by_cases hk : k < blockLimits bs 3
    · rw [fileMap_block hk, fileMap_block hk, hblocks k hk]
    · rw [fileMap_none hk, fileMap_none hk]
  rw [hmap r', hmap r, hsize, hblock]

theorem FileMap.step_append {m m' : FileMap} :
    FileMap.Step m (FileEvent.append : FileEvent bs) m' ↔ m' = m ∨
      ∃ b ≠ 0, (∀ k, m.block k ≠ b) ∧ fileBlocks bs m.size < blockLimits bs 3 ∧
        m' = ⟨(fileBlocks bs m.size + 1) * bs,
          Function.update m.block (fileBlocks bs m.size) b⟩ := by
  rw [FileMap.Step]

theorem Appended.fileMap (h : BlockFile env.toEnv r) (happended : Appended env.toEnv r r' b) :
    FileMap.Step r.fileMap (FileEvent.append : FileEvent bs) r'.fileMap := by
  have hfresh := happended.fresh
  have hnew : ∀ k, r.fileMap.block k ≠ b := by
    intro k heq
    by_cases hk : k < blockLimits bs 3
    · rw [fileMap_block hk] at heq
      have huse := h.owns.kept.inUse b (mem_nodes_cases.mpr (.inr ⟨hfresh.ne_zero, k, hk, heq⟩))
      rw [hfresh.free] at huse
      cases huse
    · rw [fileMap_none hk] at heq
      exact hfresh.ne_zero heq.symm
  have hblock : r'.fileMap.block =
      Function.update r.fileMap.block (fileBlocks bs r.inode.size) b := by
    funext k
    rw [Function.update_apply]
    by_cases hk : k < blockLimits bs 3
    · rw [fileMap_block hk, fileMap_block hk, happended.blockAt k hk]
    · have hne : k ≠ fileBlocks bs r.inode.size := by
        rintro rfl
        exact hk happended.room
      rw [if_neg hne, fileMap_none hk, fileMap_none hk]
  have hmap : r'.fileMap = ⟨r'.inode.size, r'.fileMap.block⟩ := rfl
  refine FileMap.step_append.mpr (.inr ⟨b, hfresh.ne_zero, hnew, happended.room, ?_⟩)
  rw [hmap, hblock, happended.size]
  rfl

theorem CutTo.fileMap (hcut : CutTo r r' newSize) : r'.fileMap =
    ⟨newSize, fun k => if k < fileBlocks bs newSize then r.fileMap.block k else 0⟩ := by
  have hmap : r'.fileMap = ⟨r'.inode.size, r'.fileMap.block⟩ := rfl
  rw [hmap, hcut.size]
  congr 1
  funext k
  by_cases hk : k < blockLimits bs 3
  · rw [fileMap_block hk, fileMap_block hk, hcut.blockAt k hk]
  · rw [fileMap_none hk, fileMap_none hk, ite_self]

/-- The lookup of any logical block that the format allows. -/
theorem BlockFile.lookup (hpos : 0 < bs) (h : BlockFile env.toEnv r) (hk : k < blockLimits bs 3) :
    ∃ r', getInodeDblkIdx env.toEnv r k = .ok (r.fileMap.block k, r') ∧ Shown r r' := by
  rw [fileMap_block hk]
  by_cases hsize : r.inode.size = 0
  · have hempty : fileBlocks bs r.inode.size ≤ k := by
      rw [hsize, fileBlocks, Nat.div_eq_of_lt (by omega)]
      exact Nat.zero_le k
    refine ⟨r, ?_, Shown.refl r⟩
    rw [getInodeDblkIdx, if_pos hsize, h.past k hk hempty]
  · exact getInodeDblkIdx_spec h.owns.reads hsize hk

/-- **Each event** keeps a file what it is, and does to it what its users see. -/
theorem BlockFile.step (henv : env.toEnv.Fits) (hpos : 0 < bs) (h : BlockFile env.toEnv r)
    {e : FileEvent bs} (hfair : FileFair r e) (hstep : fileStep env r e = some r') :
    BlockFile env.toEnv r' ∧ FileMap.Step r.fileMap e r'.fileMap := by
  cases e with
  | append =>
      cases hstep
      rcases h.append henv hpos hfair with
        ⟨b, r', hcode, happended, hfile⟩ | ⟨e, r', hcode, hsame, hfile⟩
      · rw [hcode]
        exact ⟨hfile, happended.fileMap h⟩
      · rw [hcode]
        exact ⟨hfile, .inl (fileMap_eq hsame.inode.size hsame.blockAt)⟩
  | truncate newSize =>
      cases hstep
      by_cases hsize : newSize ≤ r.inode.size
      · obtain ⟨r', hcode, hcut, hfile⟩ := h.truncate hsize
        rw [hcode]
        exact ⟨hfile, hcut.fileMap.trans (if_pos hsize).symm⟩
      · have hcode : truncateInode env.toEnv r newSize = .error (Errno.EINVAL, r) := by
          have hcan : ¬ (!r.inode.canTruncate) = true := by
            rw [h.canTruncate]
            decide
          rw [truncateInode, if_neg hcan, if_neg (by omega), if_pos (Nat.not_le.mp hsize)]
        rw [hcode]
        exact ⟨h, (if_neg hsize).symm⟩
  | setSize size =>
      cases hstep
      exact ⟨⟨h.canTruncate, h.mapped, h.type, h.owns.resized size, hfair.2,
        fun k hk hle => h.past k hk (hfair.1.trans hle)⟩, rfl⟩
  | lookup iblock =>
      cases hstep
      have hshown : Shown r (leaves Prod.snd (getInodeDblkIdx env.toEnv r iblock)) := by
        rcases @getInodeDblkIdx_shown bs env.toEnv iblock r with
          ⟨b, r', hcode, hshown⟩ | ⟨e, r', hcode, hshown⟩
        · rw [hcode]
          exact hshown
        · rw [hcode]
          exact hshown
      have hsame := Unchanged.of_shown hshown
      exact ⟨h.unchanged hsame (h.owns.shown hshown), fileMap_eq hsame.inode.size hsame.blockAt⟩
  | setAttr =>
      cases hstep
      obtain ⟨hfile, hsize, hblocks⟩ := h.setAttr henv
      exact ⟨hfile, fileMap_eq hsize hblocks⟩
  | removeAttr =>
      cases hstep
      obtain ⟨hfile, hsize, hblocks⟩ := h.removeAttr
      exact ⟨hfile, fileMap_eq hsize hblocks⟩
  | others s =>
      cases hstep
      obtain ⟨hfile, hsame⟩ := h.others hfair
      exact ⟨hfile, fileMap_eq hsame.inode.size hsame.blockAt⟩

theorem FileRun.blockFile (henv : env.toEnv.Fits) (hpos : 0 < bs)
    (htype : type = .FILE ∨ type = .DIRECTORY) (hrun : FileRun env type s r) :
    BlockFile env.toEnv r :=
  hrun.invariant (fun _ _ _ hfair hstep hfile => (hfile.step henv hpos hfair hstep).1)
    (blockFile_new hpos htype)

/-! ## A file of one block -/

theorem nineEnv_fits : nineEnv.toEnv.Fits where
  toSound := nineEnv_sound.toSound
  small s g b hb := by
    unfold nineEnv at hb
    dsimp only at hb
    split at hb
    · cases hb
    · cases hb
      decide
  buffer _ _ _ _ := rfl

/-- A file with block 9. -/
def nineFile : Ref 1024 :=
  leaves (fun a => a.2.2) (appendInodeDblk nineEnv.toEnv (newFile .FILE emptySpace))

theorem nineFile_run : FileRun nineEnv .FILE emptySpace nineFile :=
  .event .append (.refl _) (by decide : fileBlocks 1024 0 + 1 < 2 ^ 32) rfl

/-! ## What holds after any run -/

end Blockmap

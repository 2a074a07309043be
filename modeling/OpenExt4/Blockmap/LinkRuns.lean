import OpenExt4.Blockmap.LinkEnd
import OpenExt4.Blockmap.Symlink

set_option autoImplicit false

/-! # Links from their making to their end

What holds of a link after any run: its target reads back, its blocks are the ones it took and did
not give back. Whether its end gives back exactly these comes down to its first and its last three
pointers. -/

namespace Blockmap

open Bytes Transitions

variable {bs : ℕ} {env : LinkEnv bs} {n n' : Ext4b.Volume} {s : Space bs} {r r' : Ref bs}
variable {target : List UInt8} {b : ℕ}

/-! ## Before -/

/-- The parts below work, and the inode can count two blocks. -/
structure LinkEnv.Sound (env : LinkEnv bs) : Prop extends env.toEnv.Sound where
  holds : ∀ count ≤ 2 * (bs / EXT4_INODE_BLOCK_SIZE), env.holds count = true

/-- Before a link is made: it took nothing, and what is not in use has no buffer. -/
structure Space.Fresh (s : Space bs) : Prop where
  taken : s.taken = []
  freed : s.freed = []
  clean : ∀ b, s.inUse b = false → s.cached b = none

/-! ## The link -/

/-- The block of a long target. -/
def targetBlocks (target : List UInt8) (b : ℕ) : List ℕ := if target.length < 60 then [] else [b]

/-- The blocks of a link. -/
def linkBlocks (target : List UInt8) (b : ℕ) (r : Ref bs) : List ℕ :=
  targetBlocks target b ++ aclBlocks r

/-- The bytes of `i_block`: a short target, or the pointer to the block of a long one. -/
def linkBytes (target : List UInt8) (b : ℕ) : Buf 60 :=
  if target.length < 60 then targetBuf 60 target else putLE 4 (zeros 60) 0 (b % 2 ^ 32)

/-- **A link** with its target, which is in block `b` if it is long. -/
structure Link (env : LinkEnv bs) (target : List UInt8) (b : ℕ) (r : Ref bs) : Prop where
  type : r.inode.type = .SOFTLINK
  extents : r.inode.extents = false
  canTruncate : r.inode.canTruncate = true
  size : r.inode.size = target.length
  bytes : r.inode.blocks = linkBytes target b
  count : r.inode.blocksCount = (linkBlocks target b r).length * (bs / EXT4_INODE_BLOCK_SIZE)
  taken : r.taken.Perm (r.freed ++ linkBlocks target b r)
  distinct : (linkBlocks target b r).Nodup
  works : ∀ x ∈ linkBlocks target b r,
    env.unread x = none ∧ env.refused x = none ∧ r.inUse x = true
  data : 60 ≤ target.length → b ≠ 0 ∧ r.look b = targetBuf bs target

theorem aclBlocks_none (h : r.inode.fileAcl = 0) : aclBlocks r = [] := if_pos h

theorem aclBlocks_some (h : r.inode.fileAcl ≠ 0) : aclBlocks r = [r.inode.fileAcl] := if_neg h

theorem targetBlocks_short (h : target.length < 60) : targetBlocks target b = [] := if_pos h

theorem targetBlocks_long (h : 60 ≤ target.length) : targetBlocks target b = [b] :=
  if_neg (Nat.not_lt.mpr h)

theorem targetBlocks_le : (targetBlocks target b).length ≤ 1 := by
  unfold targetBlocks
  split <;> simp

theorem unit_pos (hbs : FormatSize bs) : 0 < bs / EXT4_INODE_BLOCK_SIZE :=
  Nat.div_pos (by have := hbs.1; unfold EXT4_INODE_BLOCK_SIZE; omega) (by decide)

theorem unit_le (hbs : FormatSize bs) : bs / EXT4_INODE_BLOCK_SIZE ≤ 128 := by
  have hle := hbs.2
  unfold EXT4_INODE_BLOCK_SIZE
  omega

/-! ## Making it -/

/-- A target that is stored in the inode. -/
theorem storeTarget_short (hs : s.Fresh) (hshort : target.length < 60) :
    ∃ r, storeTarget env (freshLink s) target = .ok r ∧ Link env target 0 r := by
  refine ⟨_, if_pos hshort, ?_⟩
  have hblocks : ∀ r : Ref bs, r.inode.fileAcl = 0 → linkBlocks target 0 r = [] := by
    intro r hzero
    rw [linkBlocks, targetBlocks_short hshort, aclBlocks_none hzero]
    rfl
  refine ⟨rfl, rfl, rfl, rfl, ?_, ?_, ?_, ?_, ?_, fun hlong => absurd hshort (Nat.not_lt.mpr hlong)⟩
  · exact (if_pos hshort).symm
  · rw [hblocks _ rfl, List.length_nil, Nat.zero_mul]
    rfl
  · rw [hblocks _ rfl, List.append_nil]
    exact (hs.taken.trans hs.freed.symm) ▸ List.Perm.refl _
  · rw [hblocks _ rfl]
    exact List.nodup_nil
  · rw [hblocks _ rfl]
    exact fun x hx => absurd hx List.not_mem_nil

/-- A target that takes a block. -/
theorem storeTarget_long (henv : env.Sound) (hbs : FormatSize bs) (hs : s.Fresh)
    (hlong : 60 ≤ target.length) (h : storeTarget env (freshLink s) target = .ok r) :
    ∃ g b, env.groupGoal = .ok g ∧ env.alloc s g = .ok b ∧ Link env target b r := by
  unfold storeTarget at h
  rw [if_neg (Nat.not_lt.mpr hlong)] at h
  obtain ⟨⟨b, k, r₁⟩, happend, h⟩ := bind_ok h
  obtain ⟨⟨b', r₂⟩, hnew, happend⟩ := bind_ok happend
  obtain ⟨g, hgoal, hgot, rfl⟩ := allocNew_empty hbs rfl hnew
  -- the link has no block yet, so that the one it gets is its first
  have haligned : ((freshLink s).inode.size + bs - 1) / bs * bs = 0 := by
    change (0 + bs - 1) / bs * bs = 0
    rw [Nat.div_eq_of_lt (by have := hbs.1; omega), Nat.zero_mul]
  have hidx : ((freshLink s).inode.size + bs - 1) / bs * bs / bs % 2 ^ 32 = 0 := by
    rw [haligned, Nat.zero_div, Nat.zero_mod]
  rw [hidx] at happend
  cases happend
  obtain ⟨hne, hfree⟩ := henv.free _ _ _ hgot
  obtain ⟨hunread, hrefused⟩ := henv.works _ _ _ hgot
  refine ⟨g, b, hgoal, hgot, ?_⟩
  simp only at h
  split at h
  · cases h
  cases hwrite : env.unwritten b with
  | some e =>
      rw [hwrite] at h
      cases h
  | none =>
      rw [hwrite] at h
      cases h
      have hblocks : ∀ r : Ref bs, r.inode.fileAcl = 0 → linkBlocks target b r = [b] := by
        intro r hzero
        rw [linkBlocks, targetBlocks_long hlong, aclBlocks_none hzero]
        rfl
      refine ⟨rfl, rfl, rfl, rfl, ?_, ?_, ?_, ?_, ?_, fun _ => ⟨hne, ?_⟩⟩
      · exact (if_neg (Nat.not_lt.mpr hlong)).symm
      · rw [hblocks _ rfl, List.length_singleton, Nat.one_mul]
        have hsmall : (0 + bs / EXT4_INODE_BLOCK_SIZE) % 2 ^ 64 = bs / EXT4_INODE_BLOCK_SIZE := by
          rw [Nat.zero_add]
          exact Nat.mod_eq_of_lt ((unit_le hbs).trans_lt (by decide))
        have hholds := henv.holds (bs / EXT4_INODE_BLOCK_SIZE) (by omega)
        change (if env.holds ((0 + bs / EXT4_INODE_BLOCK_SIZE) % 2 ^ 64) = true
          then (0 + bs / EXT4_INODE_BLOCK_SIZE) % 2 ^ 64 else 0) = _
        rw [hsmall, if_pos hholds]
      · rw [hblocks _ rfl]
        change (s.taken ++ [b]).Perm (s.freed ++ [b])
        rw [hs.taken, hs.freed]
      · rw [hblocks _ rfl]
        exact List.nodup_singleton b
      · rw [hblocks _ rfl]
        intro x hx
        rw [List.mem_singleton.mp hx]
        exact ⟨hunread, hrefused, Function.update_self ..⟩
      · have hclean : s.cached b = none := hs.clean b hfree
        change (s.cached b).getD (Function.update s.medium b (targetBuf bs target) b) = _
        rw [hclean, Function.update_self]
        rfl

/-- What `ext4b_symlink` makes. -/
theorem symlink_link (henv : env.Sound) (hbs : FormatSize bs) (hs : s.Fresh) {parent ino : ℕ}
    {name : Ext4b.Name} (h : symlink env n s parent name target = .ok (ino, n', r)) :
    0 < target.length ∧ target.length < bs ∧ ∃ b, Link env target b r ∧
      (60 ≤ target.length → ∃ g, env.groupGoal = .ok g ∧ env.alloc s g = .ok b) := by
  unfold symlink at h
  cases hnames : Ext4b.symlink n env.names bs parent name target.length with
  | error e =>
      rw [hnames] at h
      cases h
  | ok made =>
      rw [hnames] at h
      have hlen : 0 < target.length ∧ target.length < bs := by
        unfold Ext4b.symlink at hnames
        split at hnames
        · cases hnames
        split at hnames
        · cases hnames
        · omega
      refine ⟨hlen.1, hlen.2, ?_⟩
      cases hstore : storeTarget env (freshLink s) target with
      | error e =>
          simp only [hstore] at h
          cases h
      | ok r₁ =>
          simp only [hstore] at h
          cases h
          rcases Nat.lt_or_ge target.length 60 with hshort | hlong
          · have hmade : ∃ r, storeTarget env (freshLink s) target = .ok r ∧ Link env target 0 r :=
              storeTarget_short hs hshort
            obtain ⟨r₂, hshortly, hlink⟩ := hmade
            rw [hshortly] at hstore
            cases hstore
            exact ⟨0, hlink, fun hlong => absurd hshort (Nat.not_lt.mpr hlong)⟩
          · obtain ⟨g, b, hgoal, hgot, hlink⟩ := storeTarget_long henv hbs hs hlong hstore
            exact ⟨b, hlink, fun _ => ⟨g, hgoal, hgot⟩⟩

/-! ## Reading it -/

/-- The link with another state of the buffers and of what others have. -/
theorem Link.shown (h : Link env target b r) (hinode : r'.inode = r.inode)
    (htaken : r'.taken = r.taken) (hfreed : r'.freed = r.freed)
    (hkept : ∀ x ∈ linkBlocks target b r, r'.inUse x = true ∧ r'.look x = r.look x) :
    Link env target b r' := by
  have hblocks : linkBlocks target b r' = linkBlocks target b r := by
    rw [linkBlocks, linkBlocks, aclBlocks, aclBlocks, hinode]
  refine ⟨hinode ▸ h.type, hinode ▸ h.extents, hinode ▸ h.canTruncate, hinode ▸ h.size,
    hinode ▸ h.bytes, ?_, ?_, ?_, ?_, fun hlong => ?_⟩
  · rw [hblocks, hinode]
    exact h.count
  · rw [hblocks, htaken, hfreed]
    exact h.taken
  · rw [hblocks]
    exact h.distinct
  · rw [hblocks]
    exact fun x hx => ⟨(h.works x hx).1, (h.works x hx).2.1, (hkept x hx).1⟩
  · have hmem : b ∈ linkBlocks target b r := by
      rw [linkBlocks, targetBlocks_long hlong]
      exact List.mem_cons_self
    obtain ⟨hne, hdata⟩ := h.data hlong
    exact ⟨hne, (hkept b hmem).2.trans hdata⟩

/-- The first pointer of a link with a long target. -/
theorem Link.first_word (h : Link env target b r) (hlong : 60 ≤ target.length) :
    r.inode.directBlock 0 = b % 2 ^ 32 := by
  rw [Inode.directBlock, h.bytes, linkBytes, if_neg (Nat.not_lt.mpr hlong)]
  have hput : getLE 4 (putLE 4 (zeros 60) 0 (b % 2 ^ 32)) 0 = b % 2 ^ 32 % 256 ^ 4 :=
    getLE_putLE (by decide)
  exact hput.trans (Nat.mod_eq_of_lt (Nat.mod_lt _ (by decide)))

/-- The other pointers of such a link. -/
theorem Link.other_words (h : Link env target b r) (hlong : 60 ≤ target.length) :
    ∀ j ∈ [12, 13, 14], r.inode.directBlock j = 0 := by
  intro j hj
  rw [Inode.directBlock, h.bytes, linkBytes, if_neg (Nat.not_lt.mpr hlong)]
  have hapart : 4 * j + 4 ≤ 0 ∨ 0 + 4 ≤ 4 * j := by
    simp only [List.mem_cons, List.not_mem_nil, or_false] at hj
    omega
  rw [putLE, getLE_patch_of_disjoint hapart]
  simp only [List.mem_cons, List.not_mem_nil, or_false] at hj
  rcases hj with rfl | rfl | rfl <;> rfl

/-- The block of a long target is read as a part of a block. -/
theorem Link.readFrom_eq (h : Link env target b r) (hlong : 60 ≤ target.length)
    (hlen : target.length < bs) :
    readFrom env.toEnv target.length r 0 target.length =
      if b % 2 ^ 32 = 0 then .ok (List.replicate target.length 0, r)
      else getBlock env.toEnv r (b % 2 ^ 32) >>= fun got =>
        .ok ((List.range target.length).map (get8 got.1), got.2) := by
  obtain ⟨m, hm⟩ : ∃ m, target.length = m + 1 := ⟨target.length - 1, by omega⟩
  have hidx : getInodeDblkIdx env.toEnv r 0 = .ok (b % 2 ^ 32, r) := by
    rw [getInodeDblkIdx, h.size, if_neg (by omega), if_pos (by decide), h.first_word hlong]
  have hmin : min bs (m + 1) = m + 1 := by omega
  -- one block holds the target: behind it nothing is left to read
  have hend : ∀ r : Ref bs, readFrom env.toEnv m r 1 0 = .ok ([], r) := by
    intro r
    cases m <;> rfl
  have hchunk : readChunk env.toEnv r 0 (m + 1) =
      if b % 2 ^ 32 = 0 then .ok (List.replicate (m + 1) 0, r)
      else getBlock env.toEnv r (b % 2 ^ 32) >>= fun got =>
        .ok ((List.range (m + 1)).map (get8 got.1), got.2) := by
    unfold readChunk
    rw [hidx]
    change (if b % 2 ^ 32 = 0 then _ else if m + 1 = bs then _ else _) = _
    rw [if_neg (show m + 1 ≠ bs by omega)]
  rw [hm, readFrom, if_neg (Nat.succ_ne_zero m), hmin]
  dsimp only
  rw [hchunk, Nat.sub_self]
  split
  · change (readFrom env.toEnv m r 1 0 >>= _) = _
    rw [hend]
    change Except.ok (_ ++ [], r) = _
    rw [List.append_nil]
  · cases hgot : getBlock env.toEnv r (b % 2 ^ 32) with
    | error e => rfl
    | ok got =>
        change (readFrom env.toEnv m got.2 1 0 >>= _) = _
        rw [hend]
        change Except.ok (_ ++ [], got.2) = _
        rw [List.append_nil]
        rfl

theorem range_map_get8 {n : ℕ} (hlen : target.length ≤ n) :
    (List.range target.length).map (get8 (targetBuf n target)) = target := by
  refine List.ext_getElem (by simp) fun i hi hi' => ?_
  rw [List.getElem_map, List.getElem_range, targetBuf, get8_patch_of_mem (by omega) (Nat.zero_le i)
    (by omega), Nat.sub_zero, List.getD_eq_getElem?_getD, List.getElem?_eq_getElem hi',
    Option.getD_some]

/-- A link whose block has a number that fits a pointer reads back as its target. -/
theorem Link.readlink (h : Link env target b r) (hlen : target.length < bs)
    (hfits : 60 ≤ target.length → b < 2 ^ 32) {bufSize : ℕ} (hbuf : target.length < bufSize) :
    ∃ r', readlink env.toEnv r bufSize = .ok (target, r') := by
  unfold Blockmap.readlink
  rw [if_neg (Nat.ne_of_gt (Nat.zero_lt_of_lt hbuf)), if_neg (not_not.mpr h.type), h.size,
    if_neg (Nat.not_le.mpr hbuf)]
  rcases Nat.lt_or_ge target.length 60 with hshort | hlong
  · refine ⟨r, ?_⟩
    rw [if_pos hshort, h.bytes, linkBytes, if_pos hshort, range_map_get8 (Nat.le_of_lt hshort)]
  · obtain ⟨hne, hdata⟩ := h.data hlong
    have hmem : b ∈ linkBlocks target b r := by
      rw [linkBlocks, targetBlocks_long hlong]
      exact List.mem_cons_self
    rw [if_neg (Nat.not_lt.mpr hlong), h.readFrom_eq hlong hlen, Nat.mod_eq_of_lt (hfits hlong),
      if_neg hne, getBlock, (h.works b hmem).1]
    refine ⟨{ r with cached := Function.update r.cached b (some (r.look b)) }, ?_⟩
    change Except.ok ((List.range target.length).map (get8 (r.look b)), _) = _
    rw [hdata, range_map_get8 (Nat.le_of_lt hlen)]

/-- The state that a call ends in. -/
def Ends {α : Type} (P : Ref bs → Prop) : Result bs (α × Ref bs) → Prop
  | .ok (_, r) => P r
  | .error (_, r) => P r

/-- Reading a link changes the buffers at most. -/
theorem Link.readlink_ends (h : Link env target b r) (hlen : target.length < bs) (bufSize : ℕ) :
    Ends (Link env target b) (Blockmap.readlink env.toEnv r bufSize) := by
  unfold Blockmap.readlink
  rw [h.size]
  split_ifs with hzero htype hbuf hshort
  · exact h
  · exact h
  · exact h
  · exact h
  · rw [h.readFrom_eq (Nat.not_lt.mp hshort) hlen]
    split_ifs with hhole
    · exact h
    · unfold getBlock
      cases env.unread (b % 2 ^ 32) with
      | some e => exact h
      | none =>
          refine h.shown rfl rfl rfl fun x hx => ⟨(h.works x hx).2.2, ?_⟩
          change (Function.update r.cached _ (some (r.look _)) x).getD (r.medium x) = r.look x
          rw [Function.update_apply]
          split
          · next heq =>
              rw [heq]
              rfl
          · rfl

/-! ## The block of its attributes -/

theorem fileAcl_mem_linkBlocks (hacl : r.inode.fileAcl ≠ 0) :
    r.inode.fileAcl ∈ linkBlocks target b r := by
  rw [linkBlocks, aclBlocks_some hacl]
  exact List.mem_append_right _ (List.mem_singleton_self _)

theorem Link.setAttr (henv : env.Sound) (hbs : FormatSize bs) (h : Link env target b r)
    (hok : tryAllocBlock env r = .ok r') : Link env target b r' := by
  unfold tryAllocBlock at hok
  split at hok
  · cases hok
    exact h
  · next hacl =>
    have hzero : r.inode.fileAcl = 0 := not_not.mp hacl
    obtain ⟨⟨a, r₁⟩, halloc, hok⟩ := bind_ok hok
    cases hok
    obtain ⟨hgot, rfl⟩ := allocBlock_ok halloc
    obtain ⟨hne, hfree⟩ := henv.free _ _ _ hgot
    obtain ⟨hunread, hrefused⟩ := henv.works _ _ _ hgot
    have hold : linkBlocks target b r = targetBlocks target b := by
      rw [linkBlocks, aclBlocks_none hzero, List.append_nil]
    have hnew : ∀ r : Ref bs, r.inode.fileAcl = a →
        linkBlocks target b r = targetBlocks target b ++ [a] := by
      intro r hr
      rw [linkBlocks, aclBlocks, hr, if_neg hne]
    have hcount := h.count
    have htaken := h.taken
    have hdistinct := h.distinct
    have hworks := h.works
    rw [hold] at hcount htaken hdistinct hworks
    -- the blocks of the link are in use, the new one was not
    have hfresh : a ∉ targetBlocks target b := by
      intro hmem
      have huse := (hworks a hmem).2.2
      rw [hfree] at huse
      cases huse
    refine ⟨h.type, h.extents, h.canTruncate, h.size, h.bytes, ?_, ?_, ?_, ?_, h.data⟩
    · rw [hnew _ rfl, List.length_append, List.length_singleton, Nat.succ_mul]
      have hle : (targetBlocks target b).length * (bs / EXT4_INODE_BLOCK_SIZE)
          ≤ 1 * (bs / EXT4_INODE_BLOCK_SIZE) := Nat.mul_le_mul_right _ targetBlocks_le
      have hunit := unit_le hbs
      change (if env.holds ((r.inode.blocksCount + bs / EXT4_INODE_BLOCK_SIZE) % 2 ^ 64) = true
        then _ else _) = _
      rw [hcount, Nat.mod_eq_of_lt (by omega), if_pos (henv.holds _ (by omega))]
    · rw [hnew _ rfl, ← List.append_assoc]
      exact htaken.append_right [a]
    · rw [hnew _ rfl, List.nodup_append]
      refine ⟨hdistinct, List.nodup_singleton a, fun x hx y hy => ?_⟩
      rw [List.mem_singleton.mp hy]
      rintro rfl
      exact hfresh hx
    · rw [hnew _ rfl]
      intro x hx
      change env.unread x = none ∧ env.refused x = none ∧ Function.update r.inUse a true x = true
      rw [Function.update_apply]
      rcases List.mem_append.mp hx with hx | hx
      · obtain ⟨hxread, hxfree, hxuse⟩ := hworks x hx
        refine ⟨hxread, hxfree, ?_⟩
        split
        · rfl
        · exact hxuse
      · rw [List.mem_singleton.mp hx]
        exact ⟨hunread, hrefused, if_pos rfl⟩

theorem Link.removeAttr (hbs : FormatSize bs) (henv : env.Sound) (h : Link env target b r) :
    Link env target b (tryFreeBlock env r) := by
  unfold tryFreeBlock
  dsimp only
  split
  · exact h
  · next hacl =>
    obtain ⟨hunread, hrefused, huse⟩ := h.works _ (fileAcl_mem_linkBlocks hacl)
    rw [freeBlock_eq hrefused]
    have hold : linkBlocks target b r = targetBlocks target b ++ [r.inode.fileAcl] := by
      rw [linkBlocks, aclBlocks_some hacl]
    have hnew : ∀ r : Ref bs, r.inode.fileAcl = 0 →
        linkBlocks target b r = targetBlocks target b := by
      intro r hr
      rw [linkBlocks, aclBlocks_none hr, List.append_nil]
    have hcount := h.count
    have htaken := h.taken
    have hdistinct := h.distinct
    have hworks := h.works
    rw [hold] at hcount htaken hdistinct hworks
    -- the attribute block is none of the target
    have hgone : r.inode.fileAcl ∉ targetBlocks target b := fun hmem =>
      List.disjoint_of_nodup_append hdistinct hmem (List.mem_singleton_self _)
    refine ⟨h.type, h.extents, h.canTruncate, h.size, h.bytes, ?_, ?_, ?_, ?_, fun hlong => ?_⟩
    · rw [hnew _ rfl]
      rw [List.length_append, List.length_singleton, Nat.succ_mul] at hcount
      have hle : (targetBlocks target b).length * (bs / EXT4_INODE_BLOCK_SIZE)
          ≤ 1 * (bs / EXT4_INODE_BLOCK_SIZE) := Nat.mul_le_mul_right _ targetBlocks_le
      have hunit := unit_le hbs
      have hless : (r.inode.blocksCount + 2 ^ 64 - bs / EXT4_INODE_BLOCK_SIZE) % 2 ^ 64
          = (targetBlocks target b).length * (bs / EXT4_INODE_BLOCK_SIZE) := by
        rw [hcount]
        omega
      change (if env.holds ((r.inode.blocksCount + 2 ^ 64 - bs / EXT4_INODE_BLOCK_SIZE) % 2 ^ 64)
        = true then _ else _) = _
      rw [hless, if_pos (henv.holds _ (by omega))]
    · rw [hnew _ rfl]
      refine htaken.trans ?_
      change List.Perm _ ((r.freed ++ [r.inode.fileAcl]) ++ targetBlocks target b)
      rw [List.append_assoc]
      exact (List.perm_append_comm).append_left r.freed
    · rw [hnew _ rfl]
      exact hdistinct.of_append_left
    · rw [hnew _ rfl]
      intro x hx
      obtain ⟨hxread, hxfree, hxuse⟩ := hworks x (List.mem_append_left _ hx)
      refine ⟨hxread, hxfree, ?_⟩
      have hne : x ≠ r.inode.fileAcl := fun heq => hgone (heq ▸ hx)
      change Function.update r.inUse r.inode.fileAcl false x = true
      rw [Function.update_of_ne hne]
      exact hxuse
    · obtain ⟨hpos, hdata⟩ := h.data hlong
      refine ⟨hpos, ?_⟩
      have hne : b ≠ r.inode.fileAcl := by
        rintro heq
        refine hgone (heq ▸ ?_)
        rw [targetBlocks_long hlong]
        exact List.mem_singleton_self b
      change (Function.update r.cached r.inode.fileAcl none b).getD (r.medium b) = _
      rw [Function.update_of_ne hne]
      exact hdata

/-! ## Runs -/

/-- The link has its blocks. -/
theorem Link.has (h : Link env target b r) {x : ℕ} (hx : x ∈ linkBlocks target b r) : r.Has x := by
  have hcount := h.taken.count_eq x
  rw [List.count_append] at hcount
  have hpos := List.count_pos_iff.mpr hx
  unfold Ref.Has
  omega

/-- **Whatever happens** to a link leaves it what it is. -/
theorem Link.step (henv : env.Sound) (hbs : FormatSize bs) (hlen : target.length < bs)
    (h : Link env target b r) {e : LinkEvent bs} (hfair : Fair r e)
    (hstep : linkStep env r e = some r') : Link env target b r' := by
  cases e with
  | setAttr =>
      simp only [linkStep] at hstep
      cases hok : tryAllocBlock env r with
      | error e =>
          rw [hok] at hstep
          cases hstep
      | ok r₁ =>
          rw [hok] at hstep
          cases hstep
          exact h.setAttr henv hbs hok
  | removeAttr =>
      cases hstep
      exact h.removeAttr hbs henv
  | read bufSize =>
      have hends := h.readlink_ends hlen bufSize
      simp only [linkStep] at hstep
      cases hread : Blockmap.readlink env.toEnv r bufSize with
      | error out =>
          rw [hread] at hstep hends
          cases hstep
          exact hends
      | ok out =>
          rw [hread] at hstep hends
          cases hstep
          exact hends
  | others s =>
      cases hstep
      exact h.shown rfl rfl rfl fun x hx => hfair x (h.has hx)

theorem Link.run (henv : env.Sound) (hbs : FormatSize bs) (hlen : target.length < bs)
    (h : Link env target b r) (hrun : Run (linkStep env) Fair r r') : Link env target b r' :=
  hrun.invariant (fun _ _ _ hfair hstep hlink => hlink.step henv hbs hlen hfair hstep) h

end Blockmap

import OpenExt4.Blockmap.Grow
import OpenExt4.Blockmap.LinkEnd

set_option autoImplicit false

/-! # An inode and the blocks that it owns

What an inode took and did not give back are the blocks of its map, the block of its attributes
and those on their way into the map, each once. `ext4_fs_append_inode_dblk` keeps it so, also
where it fails. -/

namespace Blockmap

open Bytes TableTree

variable {bs : ℕ} {env : Env bs} {r r₁ r' : Ref bs} {b j k l p off leaf : ℕ}
variable {new new' out out' : List ℕ}

/-! ## The map with a block more -/

/-- Tables came into the map, and block `leaf` for `k`; none if it is `0`. -/
structure Extended (env : Env bs) (r r' : Ref bs) (k leaf : ℕ) (new : List ℕ) : Prop where
  took : Took env r r' new
  nodes : r'.nodes.Perm (r.nodes ++ (new ++ blockList leaf))
  blockAt : ∀ k' < blockLimits bs 3,
    r'.blockAt k' = if k' = k ∧ leaf ≠ 0 then leaf else r.blockAt k'

theorem Extended.refl (r : Ref bs) (k : ℕ) : Extended env r r k 0 [] where
  took := Took.refl r
  nodes := by
    rw [blockList, if_pos rfl, List.append_nil, List.append_nil]
  blockAt k' _ := by
    rw [if_neg fun hboth => hboth.2 rfl]

theorem Extended.trans (h : Extended env r r₁ k 0 new) (h' : Extended env r₁ r' k leaf new') :
    Extended env r r' k leaf (new ++ new') where
  took := h.took.trans h'.took
  nodes := by
    have hfirst := h.nodes
    rw [blockList, if_pos rfl, List.append_nil] at hfirst
    refine h'.nodes.trans ((hfirst.append_right _).trans ?_)
    rw [List.append_assoc, List.append_assoc]
  blockAt k' hk' := by
    have hfirst := h.blockAt k' hk'
    rw [if_neg fun hboth => hboth.2 rfl] at hfirst
    rw [h'.blockAt k' hk', hfirst]

theorem blockAt_shown (h : Shown r r₁) (hk : k < blockLimits bs 3) :
    r₁.blockAt k = r.blockAt k := by
  obtain ⟨j, off, hplaced⟩ := exists_placed hk
  rw [hplaced.blockAt, hplaced.blockAt, Ref.rootLeaf, Ref.rootLeaf, h.heap, h.inode]

theorem nodes_shown (h : Shown r r₁) : r₁.nodes = r.nodes := by
  refine List.flatMap_congr fun i _ => ?_
  rw [Ref.rootNodes, Ref.rootNodes, h.heap, h.inode]

theorem Extended.of_shown (h : Shown r r₁) (k : ℕ) : Extended env r r₁ k 0 [] where
  took := Took.of_shown h
  nodes := by
    rw [nodes_shown h, blockList, if_pos rfl, List.append_nil, List.append_nil]
  blockAt k' hk' := by
    rw [if_neg fun hboth => hboth.2 rfl, blockAt_shown h hk']

theorem Placed.extended (hplaced : Placed bs k j off) (htook : Took env r r' new)
    (hkept : RootsKept r r' j)
    (hnodes : (r'.rootNodes j).Perm (r.rootNodes j ++ (new ++ blockList leaf)))
    (hleaf : ∀ off' < (bs / 4) ^ (j - 11),
      r'.rootLeaf j off' = if off' = off ∧ leaf ≠ 0 then leaf else r.rootLeaf j off') :
    Extended env r r' k leaf new where
  took := htook
  nodes := flatMap_slot hplaced.root hnodes fun _ hi hne => hkept.nodes_eq hi hne
  blockAt k' hk' := by
    obtain ⟨i, off', hplaced'⟩ := exists_placed hk'
    rw [hplaced'.blockAt, hplaced'.blockAt]
    by_cases hroot : i = j
    · subst hroot
      rw [hleaf off' hplaced'.place]
      have hsame : off' = off ↔ k' = k := by
        rw [hplaced'.block, hplaced.block]
        omega
      simp only [hsame]
    · have hne : k' ≠ k := by
        rintro rfl
        exact hroot (hplaced.unique hplaced').1
      rw [if_neg fun hboth => hne hboth.1, hkept.leaf_eq hplaced' hroot]

/-- The map holds blocks in use, none of them twice. -/
structure Kept (r : Ref bs) : Prop where
  nodup : r.nodes.Nodup
  inUse : ∀ b ∈ r.nodes, r.inUse b = true

theorem Kept.root (h : Kept r) (hj : j < 15) : Grounded r (j - 11) (r.inode.directBlock j) where
  nodup := rootNodes_nodup h.nodup hj
  inUse t ht := h.inUse t (mem_nodes_iff.mpr ⟨j, hj, ht⟩)

theorem Kept.extended (h : Kept r) (hextended : Extended env r r₁ k 0 new) : Kept r₁ where
  nodup := by
    have hnodes := hextended.nodes
    rw [blockList, if_pos rfl, List.append_nil] at hnodes
    refine hnodes.nodup_iff.mpr (List.nodup_append.mpr ⟨h.nodup, hextended.took.nodup, ?_⟩)
    rintro x hx y hy rfl
    exact hextended.took.not_mem (h.inUse x hx) hy
  inUse b hb := by
    have hnodes := hextended.nodes
    rw [blockList, if_pos rfl, List.append_nil] at hnodes
    rw [hextended.took.inUse]
    rcases List.mem_append.mp (hnodes.mem_iff.mp hb) with hold | hnew
    · rw [h.inUse b hold]
      split <;> rfl
    · exact if_pos hnew

/-- A direct block. -/
theorem setDirect_extended (hk : k < 12) (hhole : r.blockAt k = 0) (hleaf : leaf ≠ 0)
    (hsmall : leaf < 2 ^ 32) :
    Extended env r { r with inode := r.inode.setDirectBlock k leaf } k leaf [] := by
  have hlevel : k - 11 = 0 := by omega
  have hroot : k < 15 := by omega
  have hplaced : Placed bs k k 0 := by
    refine ⟨hroot, ?_, ?_⟩
    · rw [hlevel]
      exact Nat.zero_lt_one
    · rw [firstBlock, if_pos hk, Nat.add_zero]
  have hnone : Took env r r [] := Took.refl r
  have hset : (r.inode.setDirectBlock k leaf).directBlock k = leaf := directBlock_set hroot hsmall
  rw [hplaced.blockAt, Ref.rootLeaf, hlevel] at hhole
  change r.inode.directBlock k = 0 at hhole
  refine hplaced.extended ⟨hnone.taken, hnone.freed, hnone.inUse, hnone.fresh, hnone.nodup,
    ⟨rfl, rfl, rfl, rfl, rfl, rfl⟩⟩ ?_ ?_ ?_
  · exact fun i hi hne => ⟨directBlock_set_of_ne hne, fun t ht s _ => rfl⟩
  · rw [Ref.rootNodes, Ref.rootNodes, hlevel, hhole, nodes_null, List.nil_append, List.nil_append]
    change (nodes _ _ 0 ((r.inode.setDirectBlock k leaf).directBlock k)).Perm _
    rw [hset]
    exact List.Perm.refl _
  · intro off' hoff'
    rw [hlevel, Nat.pow_zero, Nat.lt_one_iff] at hoff'
    rw [if_pos ⟨hoff', hleaf⟩, Ref.rootLeaf, hlevel]
    exact hset

theorem Kept.other_table (h : Kept r) (hj : j < 15) {i t : ℕ} (hi : i < 15) (hne : i ≠ j)
    (ht : t ∈ r.rootTables i) : t ∉ r.rootTables j ∧ r.inUse t = true := by
  have hnode := mem_nodes_of_table ht
  refine ⟨fun hown => ?_, h.inUse t (mem_nodes_iff.mpr ⟨i, hi, hnode⟩)⟩
  exact rootNodes_disjoint h.nodup hi hj hne hnode (mem_nodes_of_table hown)

/-- What grew behind one of the last pointers. -/
theorem Grows.extended (hplaced : Placed bs k (l + 12) off) (hkept : Kept r)
    (h : Grows env (l + 1) (r.inode.indirectBlock l) off leaf r r' new) :
    Extended env r r' k leaf new := by
  have hroot := hplaced.root
  have hroots : ∀ i, r'.inode.directBlock i = r.inode.directBlock i := by
    intro i
    rw [Inode.directBlock, Inode.directBlock, h.blocks]
  have hnodes : r.rootNodes (l + 12) = nodes (bs / 4) r.heap (l + 1) (r.inode.indirectBlock l) :=
    rfl
  have htables : r.rootTables (l + 12) = tables (bs / 4) r.heap (l + 1) (r.inode.indirectBlock l) :=
    rfl
  have hnodes' : r'.rootNodes (l + 12) =
      nodes (bs / 4) r'.heap (l + 1) (r.inode.indirectBlock l) := by
    rw [Ref.rootNodes, hroots]
    rfl
  refine hplaced.extended h.took ?_ ?_ ?_
  · intro i hi hne
    refine ⟨hroots i, fun t ht s _ => ?_⟩
    obtain ⟨hown, huse⟩ := hkept.other_table hroot hi hne ht
    rw [htables] at hown
    rw [h.frame t hown (h.took.not_mem huse)]
  · rw [hnodes', hnodes]
    exact h.tree.nodes
  · intro off' hoff'
    rw [Ref.rootLeaf, hroots, ← indirect_eq r l off']
    exact h.tree.leaves off' hoff'

/-- A new table behind one of the last pointers. -/
def Ref.topLinked (env : Env bs) (r : Ref bs) (l b : ℕ) : Ref bs :=
  { r.withTable env b with
    inode := (r.took env b).inode.setIndirectBlock l (b % 2 ^ 32) }

theorem topTable_made (hnone : r.inode.indirectBlock l = 0)
    (hnew : allocNew env r = .ok (b, r₁.took env b)) (hbuffer : env.noBuffer b = none) :
    topTable env r l = .ok (b, r₁.topLinked env l b) := by
  rw [topTable, if_neg (not_not.mpr hnone), hnew]
  dsimp only [Bind.bind, Except.bind]
  rw [hbuffer]
  rfl

theorem Kept.topLinked (h : Kept r) (hplaced : Placed bs k (l + 12) off)
    (hnone : r.inode.indirectBlock l = 0) (hshown : Shown r r₁) (hfresh : Fresh env r b) :
    (r₁.topLinked env l b).inode.indirectBlock l = b ∧
      Extended env r (r₁.topLinked env l b) k 0 [b] := by
  have hroot := hplaced.root
  have hset : (r₁.topLinked env l b).inode.directBlock (l + 12) = b := by
    change ((r₁.took env b).inode.setDirectBlock (l + 12) (b % 2 ^ 32)).directBlock (l + 12) = b
    rw [directBlock_set hroot (Nat.mod_lt _ (by decide)), Nat.mod_eq_of_lt hfresh.small]
  have hothers : ∀ i, i ≠ l + 12 →
      (r₁.topLinked env l b).inode.directBlock i = r.inode.directBlock i := by
    intro i hne
    change ((r₁.took env b).inode.setDirectBlock (l + 12) (b % 2 ^ 32)).directBlock i = _
    rw [directBlock_set_of_ne hne, ← hshown.inode]
    rfl
  have hheap : (r₁.topLinked env l b).heap = Function.update r.heap b fun _ => 0 := by
    rw [← hshown.heap]
    exact heap_withTable r₁ b
  -- nothing hangs below the new table
  have hempty : ∀ i < bs / 4, (r₁.topLinked env l b).heap b i = 0 := by
    intro i _
    rw [hheap, Function.update_self]
  have hbefore : r.inode.directBlock (l + 12) = 0 := hnone
  refine ⟨hset, hplaced.extended ?_ ?_ ?_ ?_⟩
  · exact Took.block hfresh hshown rfl rfl rfl ⟨rfl, rfl, rfl, rfl, rfl, rfl⟩
  · intro i hi hne
    refine ⟨hothers i hne, fun t ht s _ => ?_⟩
    have htb : t ≠ b := by
      rintro rfl
      have huse := (h.other_table hroot hi hne ht).2
      rw [hfresh.free] at huse
      cases huse
    rw [hheap, Function.update_of_ne htb]
  · rw [Ref.rootNodes, Ref.rootNodes, hset, hbefore, nodes_null, List.nil_append]
    change (nodes _ _ (l + 1) b).Perm _
    rw [nodes_succ hfresh.ne_zero, List.flatMap_eq_nil_iff.mpr]
    · exact List.Perm.refl _
    · intro i hi
      rw [hempty i (List.mem_range.mp hi), nodes_null]
  · intro off' hoff'
    rw [if_neg fun hboth => hboth.2 rfl, Ref.rootLeaf, Ref.rootLeaf, hset, hbefore, leafAt_null]
    change leafAt _ _ (l + 1) b off' = 0
    rw [leafAt_succ hfresh.ne_zero, hempty _ (div_lt hoff'), leafAt_null]

/-- The table behind one of the last pointers, old or new. -/
theorem topTable_spec (henv : env.Fits) (h : Kept r) (hplaced : Placed bs k (l + 12) off) :
    (∃ r₁ new, topTable env r l = .ok (r₁.inode.indirectBlock l, r₁) ∧
        r₁.inode.indirectBlock l ≠ 0 ∧ Extended env r r₁ k 0 new) ∨
      ∃ e r₁ new, topTable env r l = .error (e, r₁) ∧ Extended env r r₁ k 0 new := by
  by_cases hnone : r.inode.indirectBlock l = 0
  · rcases allocNew_cases henv r with ⟨b, r₁, hnew, hshown, hfresh⟩ | ⟨e, r₁, hnew, hshown⟩
    · obtain ⟨htop, hextended⟩ := h.topLinked hplaced hnone hshown hfresh
      refine .inl ⟨r₁.topLinked env l b, [b], ?_, ?_, hextended⟩
      · rw [htop]
        exact topTable_made hnone hnew hfresh.buffer
      · rw [htop]
        exact hfresh.ne_zero
    · refine .inr ⟨e, r₁, [], ?_, Extended.of_shown hshown k⟩
      rw [topTable, if_neg (not_not.mpr hnone), hnew]
      rfl
  · exact .inl ⟨r, [], if_pos hnone, hnone, Extended.refl r k⟩

/-- What an attempt to put a block into the map ends in. -/
def Puts (env : Env bs) (k fblock : ℕ) (r : Ref bs) (result : Result bs (Ref bs)) : Prop :=
  (k < blockLimits bs 3 ∧ ∃ r' new, result = .ok r' ∧ Extended env r r' k fblock new) ∨
    ∃ e r' new, result = .error (e, r') ∧ Extended env r r' k 0 new

theorem setInodeDataBlockIndex_level {fblock : ℕ} (hk : 12 ≤ k) (hlevel : levelOf bs k = l + 1) :
    setInodeDataBlockIndex env r k fblock = topTable env r l >>= fun top =>
      setFrom env fblock (l + 1) top.2 top.1 (k - blockLimits bs l) := by
  rw [setInodeDataBlockIndex,
    if_neg (show ¬ k < EXT4_INODE_DIRECT_BLOCK_COUNT from Nat.not_lt.mpr hk), hlevel]

/-- **A block is put into the map** at a hole, or it is not and only tables came. -/
theorem setInodeDataBlockIndex_spec {fblock : ℕ} (henv : env.Fits) (h : Kept r)
    (hhole : k < blockLimits bs 3 → r.blockAt k = 0) (hleaf : fblock ≠ 0)
    (hsmall : fblock < 2 ^ 32) :
    Puts env k fblock r (setInodeDataBlockIndex env r k fblock) := by
  by_cases hdirect : k < 12
  · have hk : k < blockLimits bs 3 := by
      rw [blockLimits_three]
      omega
    refine .inl ⟨hk, _, [], ?_, setDirect_extended hdirect (hhole hk) hleaf hsmall⟩
    rw [setInodeDataBlockIndex, if_pos (show k < EXT4_INODE_DIRECT_BLOCK_COUNT from hdirect),
      Nat.mod_eq_of_lt hsmall]
  by_cases hk : k < blockLimits bs 3
  · obtain ⟨j, off, hplaced⟩ := exists_placed hk
    have hj : 12 ≤ j := by
      by_contra hlt
      have hsame := (hplaced.direct (Nat.not_le.mp hlt)).2
      omega
    obtain ⟨l, -, rfl, hle, -, hlevel, hoff⟩ := hplaced.level hj
    rw [setInodeDataBlockIndex_level hle hlevel, hoff]
    rcases topTable_spec henv h hplaced with
      ⟨r₁, new, htop, hne, hfirst⟩ | ⟨e, r₁, new, htop, hfirst⟩
    · have hkept := h.extended hfirst
      have hhole₁ := hfirst.blockAt k hk
      rw [if_neg fun hboth => hboth.2 rfl, hhole hk, hplaced.blockAt, ← indirect_eq] at hhole₁
      rw [htop]
      rcases setFrom_spec henv hleaf hsmall hne hplaced.place (hkept.root hplaced.root) hhole₁ with
        ⟨r', new', hset, hgrows⟩ | ⟨e, r', new', hset, hgrows⟩
      · exact .inl ⟨hk, r', new ++ new', hset, hfirst.trans (hgrows.extended hplaced hkept)⟩
      · exact .inr ⟨e, r', new ++ new', hset, hfirst.trans (hgrows.extended hplaced hkept)⟩
    · rw [htop]
      exact .inr ⟨e, r₁, new, rfl, hfirst⟩
  · refine .inr ⟨Errno.EIO, r, [], ?_, Extended.refl r k⟩
    -- behind the triple tables, and nothing is taken yet
    have hlevel : levelOf bs k = 0 := by
      rw [blockLimits_three] at hk
      unfold levelOf
      rw [if_neg (by rw [blockLimits_one]; omega), if_neg (by rw [blockLimits_two]; omega),
        if_neg (by rw [blockLimits_three]; omega)]
    rw [setInodeDataBlockIndex,
      if_neg (show ¬ k < EXT4_INODE_DIRECT_BLOCK_COUNT from hdirect), hlevel]

/-! ## What an inode owns -/

/-- The blocks of the map, that of the attributes, and those in `out`, which are in neither. -/
def Ref.owned (r : Ref bs) (out : List ℕ) : List ℕ := r.nodes ++ (aclBlocks r ++ out)

/-- **What was taken was given back or is owned**, each block once. -/
structure Owns (env : Env bs) (r : Ref bs) (out : List ℕ) : Prop where
  nodup : (r.owned out).Nodup
  works : ∀ b ∈ r.owned out, env.unread b = none ∧ env.refused b = none ∧ r.inUse b = true
  balance : r.taken.Perm (r.freed ++ r.owned out)

theorem Owns.kept (h : Owns env r out) : Kept r where
  nodup := h.nodup.of_append_left
  inUse b hb := (h.works b (List.mem_append_left _ hb)).2.2

theorem Owns.reads (h : Owns env r out) : Works env r := by
  intro b hb
  obtain ⟨hunread, hrefused, -⟩ := h.works b (List.mem_append_left _ hb)
  exact ⟨hunread, hrefused⟩

theorem Owns.took (h : Owns env r out) (htook : Took env r r' new)
    (howned : (r'.owned out').Perm (r.owned out ++ new)) : Owns env r' out' where
  nodup := by
    refine howned.nodup_iff.mpr (List.nodup_append.mpr ⟨h.nodup, htook.nodup, ?_⟩)
    rintro x hx y hy rfl
    exact htook.not_mem (h.works x hx).2.2 hy
  works b hb := by
    rw [htook.inUse]
    rcases List.mem_append.mp (howned.mem_iff.mp hb) with hold | hnew
    · obtain ⟨hunread, hrefused, huse⟩ := h.works b hold
      refine ⟨hunread, hrefused, ?_⟩
      rw [huse]
      split <;> rfl
    · have hfresh := htook.fresh b hnew
      exact ⟨hfresh.unread, hfresh.refused, if_pos hnew⟩
  balance := by
    rw [htook.taken, htook.freed]
    refine (h.balance.append_right new).trans ?_
    rw [List.append_assoc]
    exact howned.symm.append_left r.freed

theorem Owns.gone (h : Owns env r out) (hgone : Gone r r' b)
    (howned : (r.owned out).Perm (r'.owned out' ++ blockList b)) : Owns env r' out' := by
  have hnodup := howned.nodup_iff.mp h.nodup
  refine ⟨hnodup.of_append_left, fun x hx => ?_, ?_⟩
  · obtain ⟨hunread, hrefused, huse⟩ := h.works x (howned.mem_iff.mpr (List.mem_append_left _ hx))
    refine ⟨hunread, hrefused, ?_⟩
    rw [hgone.inUse, if_neg fun hmem => List.disjoint_of_nodup_append hnodup hx hmem]
    exact huse
  · rw [hgone.taken, hgone.freed]
    refine h.balance.trans ((howned.append_left r.freed).trans ?_)
    rw [List.append_assoc]
    exact List.perm_append_comm.append_left r.freed

theorem aclBlocks_same (h : SameInode r.inode r'.inode) : aclBlocks r' = aclBlocks r := by
  rw [aclBlocks, aclBlocks, h.acl]

/-- A block on its way comes into the map, with the tables above it. -/
theorem Owns.put {fblock : ℕ} (h : Owns env r (fblock :: out)) (hleaf : fblock ≠ 0)
    (hextended : Extended env r r' k fblock new) : Owns env r' out := by
  refine h.took hextended.took ?_
  rw [Ref.owned, Ref.owned, aclBlocks_same hextended.took.inode]
  refine (hextended.nodes.append_right _).trans ?_
  rw [blockList, if_neg hleaf]
  simp only [List.append_assoc]
  refine List.Perm.append_left _ ?_
  calc (new ++ ([fblock] ++ (aclBlocks r ++ out))).Perm ([fblock] ++ (aclBlocks r ++ out) ++ new) :=
        List.perm_append_comm
    _ = ([fblock] ++ aclBlocks r) ++ (out ++ new) := by simp only [List.append_assoc]
    List.Perm _ ((aclBlocks r ++ [fblock]) ++ (out ++ new)) := List.perm_append_comm.append_right _
    _ = aclBlocks r ++ (fblock :: out ++ new) := by
        simp only [List.append_assoc, List.cons_append, List.nil_append]

/-- Tables come into the map. -/
theorem Owns.tables (h : Owns env r out) (hextended : Extended env r r' k 0 new) :
    Owns env r' out := by
  refine h.took hextended.took ?_
  have hnodes := hextended.nodes
  rw [blockList, if_pos rfl, List.append_nil] at hnodes
  rw [Ref.owned, Ref.owned, aclBlocks_same hextended.took.inode]
  refine (hnodes.append_right _).trans ?_
  rw [List.append_assoc, List.append_assoc]
  exact List.perm_append_comm.append_left r.nodes

/-! ## Blocks that come and go beside the map -/

theorem given_agree (hb : b ∉ r.tables) (hj : j < 15) :
    Agree (bs / 4) r.heap (r.given env b).heap (j - 11) (r.inode.directBlock j) := by
  intro t ht s _
  have hne : t ≠ b := by
    rintro rfl
    exact hb (mem_tables_iff.mpr ⟨j, hj, ht⟩)
  rw [heap_given hne]

theorem given_nodes (hb : b ∉ r.tables) : (r.given env b).nodes = r.nodes :=
  List.flatMap_congr fun _ hi => (given_agree hb (List.mem_range.mp hi)).nodes_eq

theorem given_blockAt (hb : b ∉ r.tables) (hk : k < blockLimits bs 3) :
    (r.given env b).blockAt k = r.blockAt k := by
  obtain ⟨j, off, hplaced⟩ := exists_placed hk
  rw [hplaced.blockAt, hplaced.blockAt]
  exact (given_agree hb hplaced.root).leafAt_eq hplaced.place

/-- A block was taken and is on its way. -/
theorem Owns.taken (h : Owns env r out) (hshown : Shown r r₁) (hfresh : Fresh env r b) :
    Owns env (r₁.took env b) (b :: out) := by
  refine h.took (Took.block hfresh hshown rfl rfl rfl (SameInode.refl _)) ?_
  have hnodes : (r₁.took env b).nodes = r.nodes := by
    rw [← nodes_shown hshown]
    rfl
  have hacl : aclBlocks (r₁.took env b) = aclBlocks r := by
    rw [aclBlocks, aclBlocks, ← hshown.inode]
    rfl
  rw [Ref.owned, Ref.owned, hnodes, hacl, List.append_assoc, List.append_assoc]
  refine List.Perm.append_left _ (List.Perm.append_left _ ?_)
  exact (List.perm_append_singleton b out).symm

/-- A block that was on its way is given back. -/
theorem Owns.returned (h : Owns env r (b :: out)) (hne : b ≠ 0) : Owns env (r.given env b) out ∧
    (r.given env b).nodes = r.nodes ∧
    ∀ k < blockLimits bs 3, (r.given env b).blockAt k = r.blockAt k := by
  have hsplit : (r.owned (b :: out)).Perm (r.owned out ++ [b]) := by
    rw [Ref.owned, Ref.owned, List.append_assoc, List.append_assoc]
    exact List.Perm.append_left _ (List.Perm.append_left _ (List.perm_append_singleton b out).symm)
  have hnodup := hsplit.nodup_iff.mp h.nodup
  have hb : b ∉ r.tables := by
    intro hmem
    refine List.disjoint_of_nodup_append hnodup ?_ (List.mem_singleton_self b)
    exact List.mem_append_left _ ((tables_sublist_nodes r).subset hmem)
  have hnodes : (r.given env b).nodes = r.nodes := given_nodes hb
  refine ⟨h.gone (Gone.given hne rfl rfl rfl (SameInode.refl _)) ?_, hnodes,
    fun k hk => given_blockAt hb hk⟩
  change (r.owned (b :: out)).Perm ((r.given env b).nodes ++ (aclBlocks r ++ out) ++ blockList b)
  rw [hnodes, blockList, if_neg hne]
  exact hsplit

end Blockmap

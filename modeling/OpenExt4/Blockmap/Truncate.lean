import OpenExt4.Blockmap.Forest

set_option autoImplicit false

/-! # Lookup and truncation

The lookup of a logical block finds what the map has for it. The release of one takes it out of
the map, gives it back and leaves every other block and every table, and so does a truncation with
the blocks behind the new end. -/

namespace Blockmap

open Bytes TableTree

variable {bs : ℕ} {env : Env bs} {r r' : Ref bs} {b j k l p off first n : ℕ}

/-! ## Lookup -/

/-- The two show the same blocks; only buffers were filled. -/
structure Shown (r r' : Ref bs) : Prop where
  look : ∀ b, r'.look b = r.look b
  inode : r'.inode = r.inode
  inUse : r'.inUse = r.inUse
  taken : r'.taken = r.taken
  freed : r'.freed = r.freed

theorem Shown.refl (r : Ref bs) : Shown r r := ⟨fun _ => rfl, rfl, rfl, rfl, rfl⟩

theorem Shown.loaded (r : Ref bs) (b : ℕ) : Shown r (r.loaded b) :=
  ⟨look_loaded r b, rfl, rfl, rfl, rfl⟩

theorem Shown.trans {r₁ : Ref bs} (h : Shown r r₁) (h' : Shown r₁ r') : Shown r r' :=
  ⟨fun b => (h'.look b).trans (h.look b), h'.inode.trans h.inode, h'.inUse.trans h.inUse,
    h'.taken.trans h.taken, h'.freed.trans h.freed⟩

theorem Shown.heap (h : Shown r r') : r'.heap = r.heap := funext fun t => heap_congr (h.look t)

theorem lookupFrom_spec (hoff : off < (bs / 4) ^ l)
    (hread : ∀ t ∈ tables (bs / 4) r.heap l p, env.unread t = none) :
    ∃ r', lookupFrom env l r p off = .ok (leafAt (bs / 4) r.heap l p off, r') ∧ Shown r r' := by
  induction l generalizing r p off with
  | zero => exact ⟨r, rfl, Shown.refl r⟩
  | succ l ih =>
      by_cases hp : p = 0
      · subst hp
        refine ⟨r, ?_, Shown.refl r⟩
        rw [lookupFrom, if_pos rfl, leafAt_null]
      · have hroot : env.unread p = none := hread p (mem_tables_root hp)
        have hinner : ∀ t ∈ tables (bs / 4) (r.loaded p).heap l (r.heap p (off / (bs / 4) ^ l)),
            env.unread t = none := by
          rw [heap_loaded]
          refine fun t ht => hread t ?_
          rw [tables_succ hp]
          exact List.mem_cons_of_mem _
            (List.mem_flatMap.mpr ⟨_, List.mem_range.mpr (div_lt hoff), ht⟩)
        obtain ⟨r', hlookup, hshown⟩ := ih (mod_lt hoff) hinner
        refine ⟨r', ?_, (Shown.loaded r p).trans hshown⟩
        rw [lookupFrom, if_neg hp, getBlock_eq hroot, leafAt_succ hp]
        rw [heap_loaded] at hlookup
        exact hlookup

/-- Every block of the map can be read and given back. -/
def Works (env : Env bs) (r : Ref bs) : Prop :=
  ∀ b ∈ r.nodes, env.unread b = none ∧ env.refused b = none

theorem Works.table (h : Works env r) (hj : j < 15) {t : ℕ} (ht : t ∈ r.rootTables j) :
    env.unread t = none :=
  (h t (mem_nodes_iff.mpr ⟨j, hj, mem_nodes_of_table ht⟩)).1

theorem indirect_eq (r : Ref bs) (l off : ℕ) :
    leafAt (bs / 4) r.heap (l + 1) (r.inode.indirectBlock l) off = r.rootLeaf (l + 12) off := rfl

/-- **The lookup of a logical block** gives the one of the map. -/
theorem getInodeDblkIdx_spec (hworks : Works env r) (hsize : r.inode.size ≠ 0)
    (hk : k < blockLimits bs 3) :
    ∃ r', getInodeDblkIdx env r k = .ok (r.blockAt k, r') ∧ Shown r r' := by
  obtain ⟨j, off, hplaced⟩ := exists_placed hk
  unfold getInodeDblkIdx
  rw [if_neg hsize, hplaced.blockAt]
  by_cases hj : j < 12
  · obtain ⟨rfl, rfl⟩ := hplaced.direct hj
    refine ⟨r, ?_, Shown.refl r⟩
    rw [if_pos (show k < EXT4_INODE_DIRECT_BLOCK_COUNT from hj), Ref.rootLeaf,
      show k - 11 = 0 by omega]
    rfl
  · obtain ⟨l, hl, rfl, hle, -, hlevel, hoff⟩ := hplaced.level (Nat.not_lt.mp hj)
    rw [if_neg (show ¬ k < EXT4_INODE_DIRECT_BLOCK_COUNT from Nat.not_lt.mpr hle), hlevel]
    change ∃ r', lookupFrom env (l + 1) r (r.inode.indirectBlock l) (k - blockLimits bs l) = _ ∧ _
    rw [hoff]
    exact lookupFrom_spec hplaced.place fun t ht => hworks.table hplaced.root ht

/-! ## The release of one block -/

/-- The fields of an inode beside its map and its count. -/
structure SameInode (a b : Inode) : Prop where
  type : b.type = a.type
  extents : b.extents = a.extents
  append : b.append = a.append
  immutable : b.immutable = a.immutable
  size : b.size = a.size
  acl : b.fileAcl = a.fileAcl

theorem SameInode.refl (a : Inode) : SameInode a a := ⟨rfl, rfl, rfl, rfl, rfl, rfl⟩

theorem SameInode.trans {a b c : Inode} (h : SameInode a b) (h' : SameInode b c) : SameInode a c :=
  ⟨h'.type.trans h.type, h'.extents.trans h.extents, h'.append.trans h.append,
    h'.immutable.trans h.immutable, h'.size.trans h.size, h'.acl.trans h.acl⟩

/-- The block as a list, empty for a hole. -/
def blockList (b : ℕ) : List ℕ := if b = 0 then [] else [b]

theorem mem_blockList {x : ℕ} : x ∈ blockList b ↔ x = b ∧ b ≠ 0 := by
  unfold blockList
  split
  · next h => simp [h]
  · next h => simp [h]

/-- Block `b` was given back, if it is one, and nothing else. -/
structure Gone (r r' : Ref bs) (b : ℕ) : Prop where
  freed : r'.freed = r.freed ++ blockList b
  taken : r'.taken = r.taken
  inUse : ∀ x, r'.inUse x = if x ∈ blockList b then false else r.inUse x
  inode : SameInode r.inode r'.inode

theorem Gone.hole {r r' : Ref bs} (hfreed : r'.freed = r.freed) (htaken : r'.taken = r.taken)
    (hinUse : r'.inUse = r.inUse) (hinode : SameInode r.inode r'.inode) : Gone r r' 0 where
  freed := by
    rw [hfreed, blockList, if_pos rfl, List.append_nil]
  taken := htaken
  inUse x := by
    rw [hinUse, blockList, if_pos rfl, if_neg List.not_mem_nil]
  inode := hinode

theorem Gone.given {r r₁ : Ref bs} (hb : b ≠ 0) (hfreed : r₁.freed = r.freed)
    (htaken : r₁.taken = r.taken) (hinUse : r₁.inUse = r.inUse)
    (hinode : SameInode r.inode r₁.inode) : Gone r (r₁.given env b) b where
  freed := by
    rw [blockList, if_neg hb]
    exact congrArg (· ++ [b]) hfreed
  taken := htaken
  inUse x := by
    rw [blockList, if_neg hb]
    change Function.update r₁.inUse b false x = _
    rw [Function.update_apply, hinUse]
    simp only [List.mem_singleton]
  inode := ⟨hinode.type, hinode.extents, hinode.append, hinode.immutable, hinode.size, hinode.acl⟩

theorem releaseFrom_spec (hoff : off < (bs / 4) ^ (l + 1))
    (hread : ∀ t ∈ tables (bs / 4) r.heap (l + 1) p, env.unread t = none)
    (hfree : leafAt (bs / 4) r.heap (l + 1) p off ≠ 0 →
      env.refused (leafAt (bs / 4) r.heap (l + 1) p off) = none) :
    ∃ r', releaseFrom env (l + 1) r p off = .ok r' ∧ r'.inode.blocks = r.inode.blocks ∧
      Gone r r' (leafAt (bs / 4) r.heap (l + 1) p off) ∧
      ∀ t, t ≠ leafAt (bs / 4) r.heap (l + 1) p off →
        r'.heap t = clearLeaf (bs / 4) r.heap (l + 1) p off t := by
  induction l generalizing r p off with
  | zero =>
      by_cases hp : p = 0
      · subst hp
        refine ⟨r, if_pos rfl, rfl, ?_, fun t _ => ?_⟩
        · rw [leafAt_null]
          exact Gone.hole rfl rfl rfl (SameInode.refl _)
        · rw [clearLeaf, if_pos rfl]
      · have hroot : env.unread p = none := hread p (mem_tables_root hp)
        have hslot : off < bs / 4 := by simpa using hoff
        have hheap : ((r.loaded p).setBlock p (putLE 4 (r.look p) (4 * off) 0)).heap
            = setSlot r.heap p off 0 := by
          have hset := @heap_setSlot bs (r.loaded p) p off 0 hslot
          rw [look_loaded, heap_loaded] at hset
          exact hset
        rw [leafAt_one hp] at hfree ⊢
        -- the slot is cleared first, also if it is a hole
        have hcode : releaseFrom env 1 r p off =
            if r.heap p off = 0 then
              .ok ((r.loaded p).setBlock p (putLE 4 (r.look p) (4 * off) 0))
            else freeBlock env ((r.loaded p).setBlock p (putLE 4 (r.look p) (4 * off) 0))
              (r.heap p off) := by
          rw [releaseFrom, if_neg hp, getBlock_eq hroot]
          change (if pointer (r.look p) (off / blocksPerLevel bs 0) = 0 then _ else _) = _
          rw [blocksPerLevel, Nat.pow_zero, Nat.div_one]
          rfl
        rw [hcode, clearLeaf, if_neg hp, if_pos rfl]
        by_cases hhole : r.heap p off = 0
        · rw [if_pos hhole, hhole]
          exact ⟨_, rfl, rfl, Gone.hole rfl rfl rfl (SameInode.refl _), fun t _ => congrFun hheap t⟩
        · rw [if_neg hhole, freeBlock_eq (hfree hhole)]
          refine ⟨_, rfl, rfl, Gone.given hhole rfl rfl rfl (SameInode.refl _), fun t ht => ?_⟩
          rw [heap_given ht, hheap]
  | succ l ih =>
      by_cases hp : p = 0
      · subst hp
        refine ⟨r, if_pos rfl, rfl, ?_, fun t _ => ?_⟩
        · rw [leafAt_null]
          exact Gone.hole rfl rfl rfl (SameInode.refl _)
        · rw [clearLeaf, if_pos rfl]
      · have hroot : env.unread p = none := hread p (mem_tables_root hp)
        -- the table above is only read: it stays, with its slot as it was
        have hinner : ∀ t ∈ tables (bs / 4) (r.loaded p).heap (l + 1)
            (r.heap p (off / (bs / 4) ^ (l + 1))), env.unread t = none := by
          rw [heap_loaded]
          refine fun t ht => hread t ?_
          rw [tables_succ hp]
          exact List.mem_cons_of_mem _
            (List.mem_flatMap.mpr ⟨_, List.mem_range.mpr (div_lt hoff), ht⟩)
        rw [leafAt_succ hp] at hfree ⊢
        obtain ⟨r', hrelease, hblocks, hgone, hheap⟩ :=
          @ih (r.loaded p) (r.heap p (off / (bs / 4) ^ (l + 1))) (off % (bs / 4) ^ (l + 1))
            (mod_lt hoff) hinner (by rw [heap_loaded]; exact hfree)
        rw [heap_loaded] at hgone hheap
        refine ⟨r', ?_, hblocks, ⟨hgone.freed, hgone.taken, hgone.inUse, hgone.inode⟩, ?_⟩
        · rw [releaseFrom, if_neg hp, getBlock_eq hroot]
          exact hrelease
        · rw [clearLeaf, if_neg hp, if_neg (Nat.succ_ne_zero l)]
          exact hheap

/-! ## The trees besides -/

/-- The trees of the other roots are as they were. -/
def RootsKept (r r' : Ref bs) (j : ℕ) : Prop :=
  ∀ i < 15, i ≠ j → r'.inode.directBlock i = r.inode.directBlock i ∧
    Agree (bs / 4) r.heap r'.heap (i - 11) (r.inode.directBlock i)

theorem RootsKept.nodes_eq (h : RootsKept r r' j) {i : ℕ} (hi : i < 15) (hne : i ≠ j) :
    r'.rootNodes i = r.rootNodes i := by
  obtain ⟨hroot, hagree⟩ := h i hi hne
  rw [Ref.rootNodes, Ref.rootNodes, hroot, hagree.nodes_eq]

theorem RootsKept.tables_eq (h : RootsKept r r' j) {i : ℕ} (hi : i < 15) (hne : i ≠ j) :
    r'.rootTables i = r.rootTables i := by
  obtain ⟨hroot, hagree⟩ := h i hi hne
  rw [Ref.rootTables, Ref.rootTables, hroot, hagree.tables_eq]

theorem RootsKept.leaf_eq (h : RootsKept r r' j) {i off : ℕ} (hplaced : Placed bs k i off)
    (hne : i ≠ j) : r'.rootLeaf i off = r.rootLeaf i off := by
  obtain ⟨hroot, hagree⟩ := h i hplaced.root hne
  rw [Ref.rootLeaf, Ref.rootLeaf, hroot, hagree.leafAt_eq hplaced.place]

/-- The block of `k` went, and no other changed in the map. -/
structure Cleared (r r' : Ref bs) (k : ℕ) : Prop where
  nodes : r.nodes.Perm (r'.nodes ++ blockList (r.blockAt k))
  tables : r'.tables = r.tables
  blockAt : ∀ k' < blockLimits bs 3, r'.blockAt k' = if k' = k then 0 else r.blockAt k'

theorem Placed.cleared (hplaced : Placed bs k j off) (hkept : RootsKept r r' j)
    (hnodes : (r.rootNodes j).Perm (r'.rootNodes j ++ blockList (r.rootLeaf j off)))
    (htables : r'.rootTables j = r.rootTables j)
    (hleaf : ∀ off' < (bs / 4) ^ (j - 11),
      r'.rootLeaf j off' = if off' = off then 0 else r.rootLeaf j off') : Cleared r r' k where
  nodes := by
    rw [hplaced.blockAt]
    exact flatMap_slot hplaced.root hnodes fun i hi hne => (hkept.nodes_eq hi hne).symm
  tables := by
    refine List.flatMap_congr fun i hi => ?_
    by_cases hne : i = j
    · rw [hne, htables]
    · exact hkept.tables_eq (List.mem_range.mp hi) hne
  blockAt k' hk' := by
    obtain ⟨i, off', hplaced'⟩ := exists_placed hk'
    rw [hplaced'.blockAt, hplaced'.blockAt]
    by_cases hroot : i = j
    · subst hroot
      rw [hleaf off' hplaced'.place]
      have hsame : off' = off ↔ k' = k := by
        rw [hplaced'.block, hplaced.block]
        omega
      simp only [hsame]
    · have hne : k' ≠ k := by
        rintro rfl
        exact hroot (hplaced.unique hplaced').1
      rw [if_neg hne, hkept.leaf_eq hplaced' hroot]

/-- The block of a root tree is no table of another one. -/
theorem Placed.apart (hplaced : Placed bs k j off) (hnodup : r.nodes.Nodup) {i : ℕ} (hi : i < 15)
    (hne : i ≠ j) {t : ℕ} (ht : t ∈ r.rootTables i) : t ≠ r.rootLeaf j off := by
  rintro rfl
  have hnode := mem_nodes_of_table ht
  have hmem : r.rootLeaf j off ∈ r.rootNodes j :=
    leafAt_mem hplaced.place (ne_zero_of_mem hnode)
  exact rootNodes_disjoint hnodup hi hplaced.root hne hnode hmem

/-- A mapped block is no table. -/
theorem blockAt_not_table (hnodup : r.nodes.Nodup) (hk : k < blockLimits bs 3) :
    r.blockAt k ∉ r.tables := by
  obtain ⟨j, off, hplaced⟩ := exists_placed hk
  rw [hplaced.blockAt]
  intro hmem
  obtain ⟨i, hi, ht⟩ := mem_tables_iff.mp hmem
  by_cases hroot : i = j
  · subst hroot
    exact leafAt_not_table (rootNodes_nodup hnodup hi) hplaced.place ht
  · exact hplaced.apart hnodup hi hroot ht rfl

theorem releaseDirect_spec (hnodup : r.nodes.Nodup) (hworks : Works env r) (hk : k < 12) :
    ∃ r', releaseInodeBlock env r k = .ok r' ∧ Gone r r' (r.blockAt k) ∧ Cleared r r' k := by
  have hlevel : k - 11 = 0 := by omega
  have hroot : k < 15 := by omega
  have hplaced : Placed bs k k 0 := by
    refine ⟨hroot, ?_, ?_⟩
    · rw [hlevel]
      exact Nat.zero_lt_one
    · rw [firstBlock, if_pos hk, Nat.add_zero]
  have hleaf : r.rootLeaf k 0 = r.inode.directBlock k := by
    rw [Ref.rootLeaf, hlevel]
    rfl
  unfold releaseInodeBlock
  rw [if_pos (show k < EXT4_INODE_DIRECT_BLOCK_COUNT from hk), hplaced.blockAt, ← hleaf]
  dsimp only
  -- a direct pointer is a tree of its own, whose only leaf is the pointer
  by_cases hhole : r.rootLeaf k 0 = 0
  · rw [if_pos hhole]
    have hgone : Gone r r (r.rootLeaf k 0) := by
      rw [hhole]
      exact Gone.hole rfl rfl rfl (SameInode.refl _)
    refine ⟨r, rfl, hgone,
      hplaced.cleared (fun _ _ _ => ⟨rfl, fun _ _ _ _ => rfl⟩) ?_ rfl fun off' hoff' => ?_⟩
    · rw [hhole, blockList, if_pos rfl, List.append_nil]
    · rw [hlevel, Nat.pow_zero, Nat.lt_one_iff] at hoff'
      rw [hoff', if_pos rfl, hhole]
  · have hmem : r.rootLeaf k 0 ∈ r.nodes :=
      mem_nodes_iff.mpr ⟨k, hroot, leafAt_mem hplaced.place hhole⟩
    rw [if_neg hhole, freeBlock_eq (hworks _ hmem).2]
    have hset : ∀ i, i ≠ k → (r.inode.setDirectBlock k 0).directBlock i = r.inode.directBlock i :=
      fun i hne => directBlock_set_of_ne hne
    have hzero : (r.inode.setDirectBlock k 0).directBlock k = 0 := directBlock_set hroot (by decide)
    have hinode : SameInode r.inode (r.inode.setDirectBlock k 0) := ⟨rfl, rfl, rfl, rfl, rfl, rfl⟩
    refine ⟨_, rfl, Gone.given hhole rfl rfl rfl hinode, hplaced.cleared ?_ ?_ ?_ ?_⟩
    · intro i hi hne
      refine ⟨hset i hne, fun t ht s _ => ?_⟩
      rw [heap_given (hplaced.apart hnodup hi hne ht)]
      rfl
    · rw [Ref.rootNodes, Ref.rootNodes, hlevel]
      change (nodes _ _ 0 (r.inode.directBlock k)).Perm
        (nodes _ _ 0 ((r.inode.setDirectBlock k 0).directBlock k) ++ _)
      rw [hzero, nodes_null, List.nil_append, hleaf]
      exact List.Perm.refl _
    · rw [Ref.rootTables, Ref.rootTables, hlevel]
      rfl
    · intro off' hoff'
      rw [hlevel, Nat.pow_zero, Nat.lt_one_iff] at hoff'
      rw [hoff', if_pos rfl, Ref.rootLeaf, hlevel]
      exact hzero

theorem releaseInodeBlock_level (hk : 12 ≤ k) (hlevel : levelOf bs k = l + 1) :
    releaseInodeBlock env r k =
      releaseFrom env (l + 1) r (r.inode.indirectBlock l) (k - blockLimits bs l) := by
  rw [releaseInodeBlock, if_neg (show ¬ k < EXT4_INODE_DIRECT_BLOCK_COUNT from Nat.not_lt.mpr hk),
    hlevel]

theorem releaseIndirect_spec (hplaced : Placed bs k (l + 12) off) (hnodup : r.nodes.Nodup)
    (hworks : Works env r) :
    ∃ r', releaseFrom env (l + 1) r (r.inode.indirectBlock l) off = .ok r' ∧
      Gone r r' (r.rootLeaf (l + 12) off) ∧ Cleared r r' k := by
  have hroot := hplaced.root
  have hwithin : off < (bs / 4) ^ (l + 1) := hplaced.place
  have hindirect := indirect_eq r l off
  have hnodes : r.rootNodes (l + 12) = nodes (bs / 4) r.heap (l + 1) (r.inode.indirectBlock l) :=
    rfl
  have htables : r.rootTables (l + 12) = tables (bs / 4) r.heap (l + 1) (r.inode.indirectBlock l) :=
    rfl
  have htree := rootNodes_nodup hnodup hroot
  rw [hnodes] at htree
  have hread : ∀ t ∈ tables (bs / 4) r.heap (l + 1) (r.inode.indirectBlock l),
      env.unread t = none := by
    rw [← htables]
    exact fun t ht => hworks.table hroot ht
  have hfree : leafAt (bs / 4) r.heap (l + 1) (r.inode.indirectBlock l) off ≠ 0 →
      env.refused (leafAt (bs / 4) r.heap (l + 1) (r.inode.indirectBlock l) off) = none := by
    intro hne
    refine (hworks _ (mem_nodes_iff.mpr ⟨l + 12, hroot, ?_⟩)).2
    rw [hnodes]
    exact leafAt_mem hwithin hne
  obtain ⟨r', hrelease, hblocks, hgone, hheap⟩ := releaseFrom_spec hwithin hread hfree
  have hroots : ∀ i, r'.inode.directBlock i = r.inode.directBlock i := by
    intro i
    rw [Inode.directBlock, Inode.directBlock, hblocks]
  have hnodes' : r'.rootNodes (l + 12) =
      nodes (bs / 4) r'.heap (l + 1) (r.inode.indirectBlock l) := by
    rw [Ref.rootNodes, hroots]
    rfl
  have htables' : r'.rootTables (l + 12) =
      tables (bs / 4) r'.heap (l + 1) (r.inode.indirectBlock l) := by
    rw [Ref.rootTables, hroots]
    rfl
  -- `releaseFrom` may leave anything in the block given back, which is none of the tables
  have hagree : Agree (bs / 4) (clearLeaf (bs / 4) r.heap (l + 1) (r.inode.indirectBlock l) off)
      r'.heap (l + 1) (r.inode.indirectBlock l) := by
    intro t ht s _
    rw [tables_clearLeaf htree hwithin] at ht
    refine congrFun (hheap t ?_) s
    rintro rfl
    exact leafAt_not_table htree hwithin ht
  rw [hindirect] at hgone hheap
  refine ⟨r', hrelease, hgone, hplaced.cleared ?_ ?_ ?_ ?_⟩
  · intro i hi hne
    refine ⟨hroots i, fun t ht s _ => ?_⟩
    have hframe : clearLeaf (bs / 4) r.heap (l + 1) (r.inode.indirectBlock l) off t = r.heap t := by
      refine clearLeaf_frame hwithin fun hown => ?_
      rw [← htables] at hown
      exact rootNodes_disjoint hnodup hi hroot hne (mem_nodes_of_table ht) (mem_nodes_of_table hown)
    rw [hheap t (hplaced.apart hnodup hi hne ht), hframe]
  · rw [hnodes', hnodes, hagree.nodes_eq, ← hindirect]
    exact nodes_clearLeaf htree (Nat.succ_ne_zero l) hwithin
  · rw [htables', htables, hagree.tables_eq, tables_clearLeaf htree hwithin]
  · intro off' hoff'
    have hwithin' : off' < (bs / 4) ^ (l + 1) := hoff'
    rw [Ref.rootLeaf, hroots, ← indirect_eq r l off']
    exact (hagree.leafAt_eq hwithin').trans
      (leafAt_clearLeaf htree (Nat.succ_ne_zero l) hwithin hwithin')

/-- **The release of one block** takes it out of the map and gives it back. -/
theorem releaseInodeBlock_spec (hnodup : r.nodes.Nodup) (hworks : Works env r)
    (hk : k < blockLimits bs 3) :
    ∃ r', releaseInodeBlock env r k = .ok r' ∧ Gone r r' (r.blockAt k) ∧ Cleared r r' k := by
  by_cases hdirect : k < 12
  · exact releaseDirect_spec hnodup hworks hdirect
  · obtain ⟨j, off, hplaced⟩ := exists_placed hk
    have hj : 12 ≤ j := by
      by_contra hlt
      have hsame := (hplaced.direct (Nat.not_le.mp hlt)).2
      omega
    obtain ⟨l, -, rfl, hle, -, hlevel, hoff⟩ := hplaced.level hj
    rw [releaseInodeBlock_level hle hlevel, hoff, hplaced.blockAt]
    exact releaseIndirect_spec hplaced hnodup hworks

end Blockmap

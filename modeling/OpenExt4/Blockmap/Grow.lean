import OpenExt4.Blockmap.Truncate

set_option autoImplicit false

/-! # A block more in the map

What `ext4_fs_set_inode_data_block_index` leaves, also where it fails half-way: the tables that it
made are in the map, and the new block is in its place or nowhere. -/

namespace Blockmap

open Bytes TableTree

variable {bs : ℕ} {env : Env bs} {r r₁ r' : Ref bs} {b j k l p off leaf : ℕ} {new new' : List ℕ}

/-! ## A new block -/

/-- The parts below on a volume whose block numbers fit the pointers, with buffers to be had. -/
structure Env.Fits (env : Env bs) : Prop extends env.Sound where
  small : ∀ s g b, env.alloc s g = .ok b → b < 2 ^ 32
  buffer : ∀ s g b, env.alloc s g = .ok b → env.noBuffer b = none

/-- A lookup shows the blocks as they were, also where it fails. -/
theorem lookupFrom_shown (l p off : ℕ) (r : Ref bs) :
    (∃ b r', lookupFrom env l r p off = .ok (b, r') ∧ Shown r r') ∨
      ∃ e r', lookupFrom env l r p off = .error (e, r') ∧ Shown r r' := by
  induction l generalizing r p off with
  | zero => exact .inl ⟨p, r, rfl, Shown.refl r⟩
  | succ l ih =>
      by_cases hp : p = 0
      · exact .inl ⟨0, r, if_pos hp, Shown.refl r⟩
      · cases hroot : env.unread p with
        | some e =>
            refine .inr ⟨e, r, ?_, Shown.refl r⟩
            rw [lookupFrom, if_neg hp, getBlock, hroot]
            rfl
        | none =>
            have hcode : lookupFrom env (l + 1) r p off = lookupFrom env l (r.loaded p)
                (r.heap p (off / blocksPerLevel bs l)) (off % blocksPerLevel bs l) := by
              rw [lookupFrom, if_neg hp, getBlock_eq hroot]
              rfl
            rw [hcode]
            rcases ih (r.heap p (off / blocksPerLevel bs l)) (off % blocksPerLevel bs l)
              (r.loaded p) with ⟨b, r', hlookup, hshown⟩ | ⟨e, r', hlookup, hshown⟩
            · exact .inl ⟨b, r', hlookup, (Shown.loaded r p).trans hshown⟩
            · exact .inr ⟨e, r', hlookup, (Shown.loaded r p).trans hshown⟩

theorem getInodeDblkIdx_shown (k : ℕ) (r : Ref bs) :
    (∃ b r', getInodeDblkIdx env r k = .ok (b, r') ∧ Shown r r') ∨
      ∃ e r', getInodeDblkIdx env r k = .error (e, r') ∧ Shown r r' := by
  unfold getInodeDblkIdx
  split
  · exact .inl ⟨0, r, rfl, Shown.refl r⟩
  · split
    · exact .inl ⟨_, r, rfl, Shown.refl r⟩
    · split
      · exact .inr ⟨_, r, rfl, Shown.refl r⟩
      · exact lookupFrom_shown _ _ _ r

theorem lastBlock_shown (r : Ref bs) :
    (∃ b r', lastBlock env r = .ok (b, r') ∧ Shown r r') ∨
      ∃ e r', lastBlock env r = .error (e, r') ∧ Shown r r' := by
  unfold lastBlock
  dsimp only
  split
  · exact getInodeDblkIdx_shown _ r
  · exact .inl ⟨0, r, rfl, Shown.refl r⟩

theorem indirectFindGoal_shown (r : Ref bs) :
    (∃ g r', indirectFindGoal env r = .ok (g, r') ∧ Shown r r') ∨
      ∃ e r', indirectFindGoal env r = .error (e, r') ∧ Shown r r' := by
  unfold indirectFindGoal
  rcases @lastBlock_shown bs env r with ⟨g, r', hlast, hshown⟩ | ⟨e, r', hlast, hshown⟩
  · rw [hlast]
    by_cases hg : g ≠ 0
    · exact .inl ⟨g + 1, r', if_pos hg, hshown⟩
    · cases hgroup : env.groupGoal with
      | error e =>
          refine .inr ⟨e, r', ?_, hshown⟩
          exact if_neg hg
      | ok goal =>
          refine .inl ⟨goal, r', ?_, hshown⟩
          exact if_neg hg
  · rw [hlast]
    exact .inr ⟨e, r', rfl, hshown⟩

/-- A block that may come into the map. -/
structure Fresh (env : Env bs) (r : Ref bs) (b : ℕ) : Prop where
  ne_zero : b ≠ 0
  free : r.inUse b = false
  small : b < 2 ^ 32
  buffer : env.noBuffer b = none
  unread : env.unread b = none
  refused : env.refused b = none

theorem allocNew_cases (henv : env.Fits) (r : Ref bs) :
    (∃ b r₁, allocNew env r = .ok (b, r₁.took env b) ∧ Shown r r₁ ∧ Fresh env r b) ∨
      ∃ e r₁, allocNew env r = .error (e, r₁) ∧ Shown r r₁ := by
  unfold allocNew
  rcases @indirectFindGoal_shown bs env r with ⟨g, r₁, hgoal, hshown⟩ | ⟨e, r₁, hgoal, hshown⟩
  · rw [hgoal]
    change (∃ b r₂, allocBlock env r₁ g = _ ∧ _) ∨ ∃ e r₂, allocBlock env r₁ g = _ ∧ _
    cases halloc : env.alloc r₁.toSpace g with
    | error e =>
        refine .inr ⟨e, r₁, ?_, hshown⟩
        rw [allocBlock, halloc]
    | ok b =>
        have hfree := henv.free _ _ _ halloc
        have hworks := henv.works _ _ _ halloc
        refine .inl ⟨b, r₁, ?_, hshown, hfree.1, ?_, henv.small _ _ _ halloc,
          henv.buffer _ _ _ halloc, hworks.1, hworks.2⟩
        · rw [allocBlock, halloc]
          rfl
        · rw [← hshown.inUse]
          exact hfree.2
  · rw [hgoal]
    exact .inr ⟨e, r₁, rfl, hshown⟩

/-! ## What was taken -/

/-- The blocks `new` were taken, and nothing was given back. -/
structure Took (env : Env bs) (r r' : Ref bs) (new : List ℕ) : Prop where
  taken : r'.taken = r.taken ++ new
  freed : r'.freed = r.freed
  inUse : ∀ x, r'.inUse x = if x ∈ new then true else r.inUse x
  fresh : ∀ x ∈ new, Fresh env r x
  nodup : new.Nodup
  inode : SameInode r.inode r'.inode

theorem Took.refl (r : Ref bs) : Took env r r [] where
  taken := (List.append_nil _).symm
  freed := rfl
  inUse _ := (if_neg List.not_mem_nil).symm
  fresh _ hx := absurd hx List.not_mem_nil
  nodup := List.nodup_nil
  inode := SameInode.refl _

theorem Took.of_shown (h : Shown r r₁) : Took env r r₁ [] where
  taken := by
    rw [h.taken, List.append_nil]
  freed := h.freed
  inUse x := by
    rw [h.inUse, if_neg List.not_mem_nil]
  fresh x hx := absurd hx List.not_mem_nil
  nodup := List.nodup_nil
  inode := by
    rw [h.inode]
    exact SameInode.refl _

theorem Took.not_fresh (h : Took env r r₁ new) {x : ℕ} (hx : x ∈ new) (hfresh : Fresh env r₁ x) :
    False := by
  have hfree := hfresh.free
  rw [h.inUse, if_pos hx] at hfree
  cases hfree

theorem Took.trans (h : Took env r r₁ new) (h' : Took env r₁ r' new') :
    Took env r r' (new ++ new') where
  taken := by
    rw [h'.taken, h.taken, List.append_assoc]
  freed := h'.freed.trans h.freed
  inUse x := by
    rw [h'.inUse, h.inUse]
    by_cases hx : x ∈ new'
    · rw [if_pos hx, if_pos (List.mem_append_right _ hx)]
    · rw [if_neg hx]
      simp only [List.mem_append, hx, or_false]
  fresh x hx := by
    rcases List.mem_append.mp hx with hx | hx
    · exact h.fresh x hx
    · have hfresh := h'.fresh x hx
      refine ⟨hfresh.ne_zero, ?_, hfresh.small, hfresh.buffer, hfresh.unread, hfresh.refused⟩
      have hfree := hfresh.free
      rwa [h.inUse, if_neg fun hmem => h.not_fresh hmem hfresh] at hfree
  nodup := by
    refine List.nodup_append.mpr ⟨h.nodup, h'.nodup, fun x hx y hy => ?_⟩
    rintro rfl
    exact h.not_fresh hx (h'.fresh x hy)
  inode := h.inode.trans h'.inode

theorem Took.block (hfresh : Fresh env r b) (hshown : Shown r r₁) {r₂ : Ref bs}
    (htaken : r₂.taken = (r₁.took env b).taken) (hfreed : r₂.freed = r₁.freed)
    (hinUse : r₂.inUse = (r₁.took env b).inUse)
    (hinode : SameInode (r₁.took env b).inode r₂.inode) : Took env r r₂ [b] where
  taken := by
    rw [htaken, ← hshown.taken]
    rfl
  freed := hfreed.trans hshown.freed
  inUse x := by
    rw [hinUse, ← hshown.inUse]
    change Function.update r₁.inUse b true x = _
    rw [Function.update_apply]
    simp only [List.mem_singleton]
  fresh x hx := by
    rw [List.mem_singleton.mp hx]
    exact hfresh
  nodup := List.nodup_singleton b
  inode := by
    rw [← hshown.inode]
    exact ⟨hinode.type, hinode.extents, hinode.append, hinode.immutable, hinode.size, hinode.acl⟩

/-- A block that was in use is none of those that were taken. -/
theorem Took.not_mem (h : Took env r r' new) {x : ℕ} (hx : r.inUse x = true) : x ∉ new := by
  intro hmem
  have hfree := (h.fresh x hmem).free
  rw [hx] at hfree
  cases hfree

/-! ## A tree that grows -/

/-- The tree behind `p` got the tables `new`, and the leaf at a place that had none; `0` where no
    leaf came. -/
structure Grows (env : Env bs) (l p off leaf : ℕ) (r r' : Ref bs) (new : List ℕ) : Prop where
  took : Took env r r' new
  blocks : r'.inode.blocks = r.inode.blocks
  tree : Grown (bs / 4) r.heap r'.heap l p off leaf new
  frame : ∀ t, t ∉ tables (bs / 4) r.heap l p → t ∉ new → r'.heap t = r.heap t

theorem Grows.of_shown (h : Shown r r₁) : Grows env l p off 0 r r₁ [] where
  took := Took.of_shown h
  blocks := congrArg Inode.blocks h.inode
  tree := by
    rw [h.heap]
    exact Grown.refl ..
  frame t _ _ := by
    rw [h.heap]

theorem Grows.trans (h : Grows env l p off 0 r r₁ new) (h' : Grows env l p off leaf r₁ r' new') :
    Grows env l p off leaf r r' (new ++ new') where
  took := h.took.trans h'.took
  blocks := h'.blocks.trans h.blocks
  tree := h.tree.trans h'.tree
  frame t ht hnew := by
    rw [List.mem_append, not_or] at hnew
    have ht' : t ∉ tables (bs / 4) r₁.heap l p := by
      rw [h.tree.tables.mem_iff, List.mem_append, not_or]
      exact ⟨ht, hnew.1⟩
    rw [h'.frame t ht' hnew.2, h.frame t ht hnew.1]

/-- The tree holds blocks in use, none of them twice. -/
structure Grounded (r : Ref bs) (l p : ℕ) : Prop where
  nodup : (nodes (bs / 4) r.heap l p).Nodup
  inUse : ∀ t ∈ nodes (bs / 4) r.heap l p, r.inUse t = true

theorem Grounded.child (h : Grounded r (l + 1) p) (hp : p ≠ 0) {i : ℕ} (hi : i < bs / 4) :
    Grounded r l (r.heap p i) where
  nodup := ((nodup_subtrees hp h.nodup).1 i hi).1
  inUse t ht := by
    refine h.inUse t ?_
    rw [nodes_succ hp]
    exact List.mem_cons_of_mem _ (List.mem_flatMap.mpr ⟨i, List.mem_range.mpr hi, ht⟩)

theorem Grounded.root (h : Grounded r (l + 1) p) (hp : p ≠ 0) : r.inUse p = true := by
  refine h.inUse p ?_
  rw [nodes_succ hp]
  exact List.mem_cons_self

/-- The growth of a tree is kept by what grows in it. -/
theorem Grounded.grows (h : Grounded r l p) (hgrows : Grows env l p off 0 r r₁ new) :
    Grounded r₁ l p where
  nodup := by
    have hnodes := hgrows.tree.nodes
    rw [if_pos rfl, List.append_nil] at hnodes
    refine hnodes.nodup_iff.mpr (List.nodup_append.mpr ⟨h.nodup, hgrows.took.nodup, ?_⟩)
    rintro x hx y hy rfl
    exact hgrows.took.not_mem (h.inUse x hx) hy
  inUse t ht := by
    have hnodes := hgrows.tree.nodes
    rw [if_pos rfl, List.append_nil] at hnodes
    rw [hgrows.took.inUse]
    rcases List.mem_append.mp (hnodes.mem_iff.mp ht) with hold | hnew
    · rw [h.inUse t hold]
      split <;> rfl
    · exact if_pos hnew

/-- A subtree that grows is the growth of the tree. -/
theorem Grows.child (hp : p ≠ 0) (hoff : off < (bs / 4) ^ (l + 1)) (hground : Grounded r (l + 1) p)
    (h : Grows env l (r.heap p (off / (bs / 4) ^ l)) (off % (bs / 4) ^ l) leaf r r' new) :
    Grows env (l + 1) p off leaf r r' new := by
  obtain ⟨heach, hpairs⟩ := nodup_subtrees hp hground.nodup
  have hslot : off / (bs / 4) ^ l < bs / 4 := div_lt hoff
  have hroot : r'.heap p = r.heap p := by
    refine h.frame p (fun hmem => ?_) (h.took.not_mem (hground.root hp))
    exact (heach _ hslot).2 (mem_nodes_of_table hmem)
  refine ⟨h.took, h.blocks, Grown.child hp hoff (fun i _ => congrFun hroot i) ?_ h.tree, ?_⟩
  · intro i hi hne t ht s _
    have hnode := mem_nodes_of_table ht
    have hframe := h.frame t
      (fun hmem => hpairs i hi _ hslot hne t hnode (mem_nodes_of_table hmem))
      (h.took.not_mem ((hground.child hp hi).inUse t hnode))
    exact congrFun hframe s
  · intro t ht hnew
    refine h.frame t (fun hmem => ht ?_) hnew
    rw [tables_succ hp]
    exact List.mem_cons_of_mem _ (List.mem_flatMap.mpr ⟨_, List.mem_range.mpr hslot, hmem⟩)

/-- A block is put into a table of the last level. -/
theorem Grows.slot (hp : p ≠ 0) (hoff : off < bs / 4) (hhole : r.heap p off = 0) (hleaf : leaf ≠ 0)
    (hsmall : leaf < 2 ^ 32) :
    Grows env 1 p off leaf r ((r.loaded p).setBlock p (putLE 4 (r.look p) (4 * off) leaf)) [] := by
  have hheap : ((r.loaded p).setBlock p (putLE 4 (r.look p) (4 * off) leaf)).heap
      = setSlot r.heap p off leaf := by
    have hset := @heap_setSlot bs (r.loaded p) p off leaf hoff
    rw [look_loaded, heap_loaded, Nat.mod_eq_of_lt hsmall] at hset
    exact hset
  have hnone : Took env r r [] := Took.refl r
  refine ⟨⟨hnone.taken, hnone.freed, hnone.inUse, hnone.fresh, hnone.nodup, hnone.inode⟩, rfl, ?_,
    fun t ht _ => ?_⟩
  · rw [hheap]
    exact Grown.slot hp hoff hhole hleaf
  · rw [hheap]
    have hne : t ≠ p := by
      rintro rfl
      exact ht (mem_tables_root hp)
    exact Function.update_of_ne hne ..

/-- A table that was made. -/
def Ref.withTable (env : Env bs) (r : Ref bs) (b : ℕ) : Ref bs :=
  (r.took env b).setBlock b (zeros bs)

theorem heap_withTable (r : Ref bs) (b : ℕ) :
    (r.withTable env b).heap = Function.update r.heap b fun _ => 0 :=
  heap_zeros (r.took env b) b

/-- A new table, put into the one above it. -/
def Ref.linked (env : Env bs) (r : Ref bs) (p slot b : ℕ) : Ref bs :=
  (r.withTable env b).setBlock p (putLE 4 (r.look p) (4 * slot) (b % 2 ^ 32))

theorem heap_linked {slot : ℕ} (hne : p ≠ b) (hslot : slot < bs / 4) (hsmall : b < 2 ^ 32) :
    (r.linked env p slot b).heap = setSlot (Function.update r.heap b fun _ => 0) p slot b := by
  have hlook : (r.withTable env b).look p = r.look p := by
    rw [Ref.withTable, look_setBlock, if_neg hne]
    rfl
  have hset := @heap_setSlot bs (r.withTable env b) p _ (b % 2 ^ 32) hslot
  rw [hlook, heap_withTable, Nat.mod_mod, Nat.mod_eq_of_lt hsmall] at hset
  rw [Ref.linked, Nat.mod_eq_of_lt hsmall]
  exact hset

theorem Grounded.ne_fresh (hground : Grounded r (l + 1) p) (hp : p ≠ 0) (hfresh : Fresh env r b) :
    p ≠ b := by
  rintro rfl
  have huse := hground.root hp
  rw [hfresh.free] at huse
  cases huse

theorem Grows.table (hp : p ≠ 0) (hl : l ≠ 0) (hoff : off < (bs / 4) ^ (l + 1))
    (hground : Grounded r (l + 1) p) (hhole : r.heap p (off / (bs / 4) ^ l) = 0)
    (hshown : Shown r r₁) (hfresh : Fresh env r b) :
    Grows env (l + 1) p off 0 r (r₁.linked env p (off / (bs / 4) ^ l) b) [b] := by
  have hslot : off / (bs / 4) ^ l < bs / 4 := div_lt hoff
  have hne := hground.ne_fresh hp hfresh
  have hheap : (r₁.linked env p (off / (bs / 4) ^ l) b).heap =
      setSlot (Function.update r.heap b fun _ => 0) p (off / (bs / 4) ^ l) b := by
    rw [heap_linked hne hslot hfresh.small, hshown.heap]
  have hframe : ∀ t, t ≠ p → t ≠ b →
      (r₁.linked env p (off / (bs / 4) ^ l) b).heap t = r.heap t := by
    intro t htp htb
    rw [hheap, setSlot, Function.update_of_ne htp, Function.update_of_ne htb]
  refine ⟨?_, ?_, Grown.table hp hl hoff hfresh.ne_zero hhole ?_ ?_ ?_, ?_⟩
  · exact Took.block hfresh hshown rfl rfl rfl (SameInode.refl _)
  · change r₁.inode.blocks = r.inode.blocks
    rw [hshown.inode]
  · rw [hheap, setSlot, Function.update_self, Function.update_self]
  · intro i _
    rw [hheap, setSlot, Function.update_of_ne hne.symm, Function.update_self]
  · intro i hi hother
    refine ⟨?_, fun t ht s _ => ?_⟩
    · rw [hheap, setSlot, Function.update_self, Function.update_of_ne hother,
        Function.update_of_ne hne]
    · have hnode := mem_nodes_of_table ht
      -- the trees beside the slot have neither the table nor the new block
      have htp : t ≠ p := by
        rintro rfl
        exact ((nodup_subtrees hp hground.nodup).1 i hi).2 hnode
      have htb : t ≠ b := by
        rintro rfl
        have huse := (hground.child hp hi).inUse t hnode
        rw [hfresh.free] at huse
        cases huse
      exact congrFun (hframe t htp htb) s
  · intro t ht hnew
    refine hframe t ?_ fun htb => hnew (List.mem_singleton.mpr htb)
    rintro rfl
    exact ht (mem_tables_root hp)

section Loop

variable {fblock : ℕ} {e : Errno}

theorem setFrom_unread (hroot : env.unread p = some e) :
    setFrom env fblock (l + 1) r p off = .error (e, r) := by
  rw [setFrom, getBlock, hroot]
  rfl

theorem setFrom_last (hroot : env.unread p = none) (hsmall : fblock < 2 ^ 32) :
    setFrom env fblock 1 r p off =
      .ok ((r.loaded p).setBlock p (putLE 4 (r.look p) (4 * off) fblock)) := by
  rw [setFrom, getBlock_eq hroot]
  change Except.ok ((r.loaded p).setBlock p (putLE 4 (r.look p)
    (4 * (off / blocksPerLevel bs 0)) (fblock % 2 ^ 32))) = _
  rw [blocksPerLevel, Nat.pow_zero, Nat.div_one, Nat.mod_eq_of_lt hsmall]

/-- The table of the level below is there. -/
theorem setFrom_below (hroot : env.unread p = none)
    (hchild : r.heap p (off / (bs / 4) ^ (l + 1)) ≠ 0) :
    setFrom env fblock (l + 2) r p off = setFrom env fblock (l + 1) (r.loaded p)
      (r.heap p (off / (bs / 4) ^ (l + 1))) (off % (bs / 4) ^ (l + 1)) := by
  rw [setFrom, getBlock_eq hroot]
  dsimp only [Bind.bind, Except.bind]
  rw [if_neg (Nat.succ_ne_zero l)]
  exact if_pos hchild

/-- There is none, and none can be had. -/
theorem setFrom_none (hroot : env.unread p = none)
    (hchild : r.heap p (off / (bs / 4) ^ (l + 1)) = 0)
    (hnew : allocNew env (r.loaded p) = .error (e, r₁)) :
    setFrom env fblock (l + 2) r p off = .error (e, r₁) := by
  rw [setFrom, getBlock_eq hroot]
  dsimp only [Bind.bind, Except.bind]
  rw [if_neg (Nat.succ_ne_zero l), hnew]
  exact if_neg (not_not.mpr hchild)

/-- It is made. -/
theorem setFrom_made (hroot : env.unread p = none)
    (hchild : r.heap p (off / (bs / 4) ^ (l + 1)) = 0)
    (hnew : allocNew env (r.loaded p) = .ok (b, r₁.took env b)) (hshown : Shown r r₁)
    (hbuffer : env.noBuffer b = none) :
    setFrom env fblock (l + 2) r p off = setFrom env fblock (l + 1)
      (r₁.linked env p (off / (bs / 4) ^ (l + 1)) b) b (off % (bs / 4) ^ (l + 1)) := by
  rw [setFrom, getBlock_eq hroot]
  dsimp only [Bind.bind, Except.bind]
  rw [if_neg (Nat.succ_ne_zero l), hnew]
  dsimp only
  rw [hbuffer, Ref.linked, hshown.look]
  exact if_neg (not_not.mpr hchild)

end Loop

/-- What an attempt to put block `fblock` into a tree ends in. -/
def PutsFrom (env : Env bs) (l p off fblock : ℕ) (r : Ref bs) (result : Result bs (Ref bs)) :
    Prop :=
  (∃ r' new, result = .ok r' ∧ Grows env l p off fblock r r' new) ∨
    ∃ e r' new, result = .error (e, r') ∧ Grows env l p off 0 r r' new

theorem PutsFrom.map {l' p' off' fblock : ℕ} {result : Result bs (Ref bs)}
    (h : PutsFrom env l' p' off' fblock r₁ result)
    (hgrows : ∀ leaf r' new', Grows env l' p' off' leaf r₁ r' new' →
      Grows env l p off leaf r r' (new ++ new')) :
    PutsFrom env l p off fblock r result := by
  rcases h with ⟨r', new', hset, hmore⟩ | ⟨e, r', new', hset, hmore⟩
  · exact .inl ⟨r', new ++ new', hset, hgrows _ _ _ hmore⟩
  · exact .inr ⟨e, r', new ++ new', hset, hgrows _ _ _ hmore⟩

/-- **A block is put behind a table**, or tables are made on its way and it is not. -/
theorem setFrom_spec {fblock : ℕ} (henv : env.Fits) (hleaf : fblock ≠ 0) (hsmall : fblock < 2 ^ 32)
    (hp : p ≠ 0) (hoff : off < (bs / 4) ^ (l + 1)) (hground : Grounded r (l + 1) p)
    (hhole : leafAt (bs / 4) r.heap (l + 1) p off = 0) :
    PutsFrom env (l + 1) p off fblock r (setFrom env fblock (l + 1) r p off) := by
  induction l generalizing r p off with
  | zero =>
      cases hroot : env.unread p with
      | some e => exact .inr ⟨e, r, [], setFrom_unread hroot, Grows.of_shown (Shown.refl r)⟩
      | none =>
          have hslot : off < bs / 4 := by simpa using hoff
          rw [leafAt_one hp] at hhole
          exact .inl ⟨_, [], setFrom_last hroot hsmall, Grows.slot hp hslot hhole hleaf hsmall⟩
  | succ l ih =>
      cases hroot : env.unread p with
      | some e => exact .inr ⟨e, r, [], setFrom_unread hroot, Grows.of_shown (Shown.refl r)⟩
      | none =>
          have hslot : off / (bs / 4) ^ (l + 1) < bs / 4 := div_lt hoff
          have hloaded : Grows env (l + 2) p off 0 r (r.loaded p) [] :=
            Grows.of_shown (Shown.loaded r p)
          rw [leafAt_succ hp] at hhole
          by_cases hchild : r.heap p (off / (bs / 4) ^ (l + 1)) = 0
          · rcases allocNew_cases henv (r.loaded p) with
              ⟨b, r₁, hnew, hshown, hfresh⟩ | ⟨e, r₁, hnew, hshown⟩
            -- the new table is there from now on, whatever becomes of the block below it
            · have hshown' := (Shown.loaded r p).trans hshown
              have hfresh' : Fresh env r b := ⟨hfresh.ne_zero, hfresh.free, hfresh.small,
                hfresh.buffer, hfresh.unread, hfresh.refused⟩
              have htable :=
                Grows.table hp (Nat.succ_ne_zero l) hoff hground hchild hshown' hfresh'
              have hground' := hground.grows htable
              have hbelow : (r₁.linked env p (off / (bs / 4) ^ (l + 1)) b).heap p
                  (off / (bs / 4) ^ (l + 1)) = b := by
                rw [heap_linked (hground.ne_fresh hp hfresh') hslot hfresh.small, setSlot,
                  Function.update_self, Function.update_self]
              have hhole' := htable.tree.leaves off hoff
              rw [if_neg fun hboth => hboth.2 rfl, leafAt_succ hp, leafAt_succ hp, hhole] at hhole'
              have hground'' := hground'.child hp hslot
              rw [setFrom_made hroot hchild hnew hshown' hfresh.buffer]
              rw [hbelow] at hhole' hground''
              refine (ih hfresh.ne_zero (mod_lt hoff) hground'' hhole').map
                fun leaf r' new' hmore => htable.trans (Grows.child hp hoff hground' ?_)
              rw [hbelow]
              exact hmore
            · exact .inr ⟨e, r₁, [], setFrom_none hroot hchild hnew,
                Grows.of_shown ((Shown.loaded r p).trans hshown)⟩
          · -- the table below is there
            have hground' := hground.grows hloaded
            have hheap := heap_loaded r p
            rw [setFrom_below hroot hchild]
            rw [← hheap] at hchild hhole ⊢
            exact (ih hchild (mod_lt hoff) (hground'.child hp hslot) hhole).map
              fun leaf r' new' hmore => hloaded.trans (hmore.child hp hoff hground')

end Blockmap

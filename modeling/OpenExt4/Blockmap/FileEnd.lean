import OpenExt4.Blockmap.Append

set_option autoImplicit false

/-! # The end of an inode with block pointers

`ext4_fs_free_inode` gives back the tables of the map, each once, and the block of the attributes.
It reads a table before the ones below it go, and what it gives back is none that it still has to
read. -/

namespace Blockmap

open Bytes TableTree

variable {bs : ℕ} {env : Env bs} {r r₁ r' : Ref bs} {b j k l p off : ℕ} {gone gone' : List ℕ}
variable {h : ℕ → ℕ → ℕ}

/-! ## Tables given back -/

/-- The blocks in `gone` were given back in this order, and no other changed. -/
structure Released (r r' : Ref bs) (gone : List ℕ) : Prop where
  freed : r'.freed = r.freed ++ gone
  taken : r'.taken = r.taken
  blocks : r'.inode.blocks = r.inode.blocks
  inode : SameInode r.inode r'.inode
  heap : ∀ t, t ∉ gone → r'.heap t = r.heap t

theorem Released.of_shown (hshown : Shown r r₁) : Released r r₁ [] where
  freed := by
    rw [hshown.freed, List.append_nil]
  taken := hshown.taken
  blocks := congrArg Inode.blocks hshown.inode
  inode := by
    rw [hshown.inode]
    exact SameInode.refl _
  heap t _ := by
    rw [hshown.heap]

theorem Released.trans (hfirst : Released r r₁ gone) (hsecond : Released r₁ r' gone') :
    Released r r' (gone ++ gone') where
  freed := by
    rw [hsecond.freed, hfirst.freed, List.append_assoc]
  taken := hsecond.taken.trans hfirst.taken
  blocks := hsecond.blocks.trans hfirst.blocks
  inode := hfirst.inode.trans hsecond.inode
  heap t ht := by
    rw [List.mem_append, not_or] at ht
    rw [hsecond.heap t ht.2, hfirst.heap t ht.1]

theorem Released.block (r : Ref bs) (b : ℕ) : Released r (r.given env b) [b] where
  freed := rfl
  taken := rfl
  blocks := rfl
  inode := ⟨rfl, rfl, rfl, rfl, rfl, rfl⟩
  heap _ ht := heap_given fun heq => ht (List.mem_singleton.mpr heq)

/-- Trees that share no table are released one after the other. -/
theorem freeEach_spec {f : Ref bs → ℕ → Result bs (Ref bs)} {ps : List ℕ}
    (hf : ∀ r p, p ≠ 0 → p ∈ ps → Agree (bs / 4) h r.heap l p →
      ∃ r' gone, f r p = .ok r' ∧ Released r r' gone ∧ gone.Perm (tables (bs / 4) h l p))
    (hnodup : (ps.flatMap (tables (bs / 4) h l)).Nodup)
    (hagree : ∀ p ∈ ps, Agree (bs / 4) h r.heap l p) :
    ∃ r' gone, freeEach f ps r = .ok r' ∧ Released r r' gone ∧
      gone.Perm (ps.flatMap (tables (bs / 4) h l)) := by
  induction ps generalizing r with
  | nil => exact ⟨r, [], rfl, Released.of_shown (Shown.refl r), List.Perm.refl _⟩
  | cons p ps ih =>
      rw [List.flatMap_cons] at hnodup ⊢
      have hrest : ∀ r p, p ≠ 0 → p ∈ ps → Agree (bs / 4) h r.heap l p →
          ∃ r' gone, f r p = .ok r' ∧ Released r r' gone ∧ gone.Perm (tables (bs / 4) h l p) :=
        fun r q hq hmem => hf r q hq (List.mem_cons_of_mem p hmem)
      by_cases hp : p = 0
      · subst hp
        rw [freeEach, if_pos rfl, tables_null, List.nil_append]
        exact ih hrest hnodup.of_append_right fun q hq => hagree q (List.mem_cons_of_mem 0 hq)
      · obtain ⟨r₁, gone, hfirst, hreleased, hperm⟩ :=
          hf r p hp List.mem_cons_self (hagree p List.mem_cons_self)
        have hagree₁ : ∀ q ∈ ps, Agree (bs / 4) h r₁.heap l q := by
          intro q hq t ht s hs
          have hapart : t ∉ gone := by
            intro hmem
            refine List.disjoint_of_nodup_append hnodup (hperm.mem_iff.mp hmem) ?_
            exact List.mem_flatMap.mpr ⟨q, hq, ht⟩
          rw [hreleased.heap t hapart]
          exact hagree q (List.mem_cons_of_mem p hq) t ht s hs
        obtain ⟨r', gone', hmore, hreleased', hperm'⟩ := ih hrest hnodup.of_append_right hagree₁
        refine ⟨r', gone ++ gone', ?_, hreleased.trans hreleased', hperm.append hperm'⟩
        rw [freeEach, if_neg hp, hfirst]
        exact hmore

/-- **The tables of a tree** are given back, each once. -/
theorem freeTables_spec (hp : p ≠ 0) (hagree : Agree (bs / 4) h r.heap (l + 1) p)
    (hnodup : (tables (bs / 4) h (l + 1) p).Nodup)
    (hworks : ∀ t ∈ tables (bs / 4) h (l + 1) p, env.unread t = none ∧ env.refused t = none) :
    ∃ r' gone, freeTables env l r p = .ok r' ∧ Released r r' gone ∧
      gone.Perm (tables (bs / 4) h (l + 1) p) := by
  induction l generalizing r p with
  | zero =>
      have htables : tables (bs / 4) h 1 p = [p] := by
        rw [tables_succ hp]
        exact congrArg (p :: ·) (List.flatMap_eq_nil_iff.mpr fun _ _ => rfl)
      rw [htables] at hworks ⊢
      have hfree := freeBlock_eq (r := r) (hworks p (List.mem_singleton_self p)).2
      exact ⟨r.given env p, [p], hfree, Released.block r p, List.Perm.refl _⟩
  | succ l ih =>
      have hchildren : (pointers (r.look p)).flatMap (tables (bs / 4) h (l + 1)) =
          (List.range (bs / 4)).flatMap fun i => tables (bs / 4) h (l + 1) (h p i) := by
        rw [pointers, List.flatMap_map]
        refine List.flatMap_congr fun i hi => ?_
        exact congrArg _ (hagree.root hp (List.mem_range.mp hi))
      have htables : tables (bs / 4) h (l + 2) p =
          p :: (pointers (r.look p)).flatMap (tables (bs / 4) h (l + 1)) := by
        rw [hchildren, tables_succ hp]
      have hchild : ∀ q ∈ pointers (r.look p), Agree (bs / 4) h r.heap (l + 1) q := by
        intro q hq
        obtain ⟨i, hi, rfl⟩ := List.mem_map.mp hq
        have hroot := hagree.root hp (List.mem_range.mp hi)
        change Agree (bs / 4) h r.heap (l + 1) (r.heap p i)
        rw [hroot]
        exact hagree.child hp (List.mem_range.mp hi)
      rw [htables] at hnodup hworks ⊢
      rw [List.nodup_cons] at hnodup
      obtain ⟨hunread, hrefused⟩ := hworks p List.mem_cons_self
      have hsub : ∀ q ∈ pointers (r.look p), ∀ t ∈ tables (bs / 4) h (l + 1) q,
          t ∈ (pointers (r.look p)).flatMap (tables (bs / 4) h (l + 1)) :=
        fun q hq t ht => List.mem_flatMap.mpr ⟨q, hq, ht⟩
      -- the children go first, each with the tables below it; the table itself is last
      have heach : ∀ r' q, q ≠ 0 → q ∈ pointers (r.look p) → Agree (bs / 4) h r'.heap (l + 1) q →
          ∃ r'' gone, freeTables env l r' q = .ok r'' ∧ Released r' r'' gone ∧
            gone.Perm (tables (bs / 4) h (l + 1) q) := by
        intro r' q hq hmem hagree'
        exact ih hq hagree' ((List.nodup_flatMap.mp hnodup.2).1 q hmem) fun t ht =>
          hworks t (List.mem_cons_of_mem p (hsub q hmem t ht))
      have hloaded : Released r (r.loaded p) [] := Released.of_shown (Shown.loaded r p)
      have hlast : ∀ r, Released r (r.given env p) [p] := fun r => Released.block r p
      obtain ⟨r₁, gone, hchildrenGo, hreleased, hperm⟩ :=
        @freeEach_spec bs (r.loaded p) (l + 1) h _ _ heach hnodup.2
          (by rw [heap_loaded]; exact hchild)
      refine ⟨_, [] ++ gone ++ [p], ?_,
        (hloaded.trans hreleased).trans (hlast r₁), ?_⟩
      · rw [freeTables, getBlock_eq hunread]
        change (freeEach (freeTables env l) (pointers (r.look p)) (r.loaded p) >>= _) = _
        rw [hchildrenGo]
        exact freeBlock_eq hrefused
      · rw [List.nil_append]
        exact (List.perm_append_singleton p gone).trans (hperm.cons p)

/-! ## The last three pointers -/

/-- The tables of root `j` went, and its pointer; the other roots are as they were. -/
structure RootGone (r r' : Ref bs) (j : ℕ) (gone : List ℕ) : Prop where
  freed : r'.freed = r.freed ++ gone
  taken : r'.taken = r.taken
  inode : SameInode r.inode r'.inode
  tables : gone.Perm (r.rootTables j)
  roots : ∀ i, i ≠ j → r'.inode.directBlock i = r.inode.directBlock i
  heap : ∀ t, t ∉ gone → r'.heap t = r.heap t

theorem freeIndirect_spec (hnodup : (r.rootTables (l + 12)).Nodup)
    (hworks : ∀ t ∈ r.rootTables (l + 12), env.unread t = none ∧ env.refused t = none) :
    ∃ r' gone, freeIndirect env l r = .ok r' ∧ RootGone r r' (l + 12) gone := by
  have htables : r.rootTables (l + 12) = tables (bs / 4) r.heap (l + 1) (r.inode.indirectBlock l) :=
    rfl
  by_cases hnone : r.inode.indirectBlock l = 0
  · refine ⟨r, [], if_pos hnone, (List.append_nil _).symm, rfl, SameInode.refl _, ?_,
      fun _ _ => rfl, fun _ _ => rfl⟩
    rw [htables, hnone, tables_null]
  · rw [htables] at hnodup hworks
    obtain ⟨r₁, gone, hfree, hreleased, hperm⟩ :=
      freeTables_spec hnone (fun _ _ _ _ => rfl) hnodup hworks
    refine ⟨{ r₁ with inode := r₁.inode.setIndirectBlock l 0 }, gone, ?_, hreleased.freed,
      hreleased.taken, ?_, ?_, fun i hne => ?_, hreleased.heap⟩
    · rw [freeIndirect, if_neg hnone, hfree]
      rfl
    · exact hreleased.inode.trans ⟨rfl, rfl, rfl, rfl, rfl, rfl⟩
    · rw [htables]
      exact hperm
    · have hset : (r₁.inode.setDirectBlock (l + 12) 0).directBlock i = r₁.inode.directBlock i :=
        directBlock_set_of_ne hne
      have hsame : r₁.inode.directBlock i = r.inode.directBlock i := by
        rw [Inode.directBlock, Inode.directBlock, hreleased.blocks]
      exact hset.trans hsame

/-- The tables of another root are still there. -/
theorem RootGone.rootTables_eq {i : ℕ} (hgone : RootGone r r₁ j gone) (hne : i ≠ j)
    (hapart : ∀ t ∈ r.rootTables i, t ∉ r.rootTables j) : r₁.rootTables i = r.rootTables i := by
  have hagree : Agree (bs / 4) r.heap r₁.heap (i - 11) (r.inode.directBlock i) := by
    intro t ht s _
    rw [hgone.heap t fun hmem => hapart t ht (hgone.tables.mem_iff.mp hmem)]
  rw [Ref.rootTables, Ref.rootTables, hgone.roots i hne, hagree.tables_eq]

theorem tables_eq (r : Ref bs) :
    r.tables = r.rootTables 12 ++ (r.rootTables 13 ++ r.rootTables 14) := by
  have hdirect : ∀ j < 12, r.rootTables j = [] := by
    intro j hj
    rw [Ref.rootTables, show j - 11 = 0 by omega]
    rfl
  have hrange : List.range 15 = List.range 12 ++ [12, 13, 14] := rfl
  rw [Ref.tables, hrange, List.flatMap_append,
    List.flatMap_eq_nil_iff.mpr fun j hj => hdirect j (List.mem_range.mp hj), List.nil_append]
  simp only [List.flatMap_cons, List.flatMap_nil, List.append_nil]

/-- **The tables of the map** are given back, each once. -/
theorem freeMap_spec (hmapped : mappedByExtents env r.inode = false) (hnodup : r.tables.Nodup)
    (hworks : ∀ t ∈ r.tables, env.unread t = none ∧ env.refused t = none) :
    ∃ r' gone, freeMap env r = .ok r' ∧ r'.freed = r.freed ++ gone ∧ r'.taken = r.taken ∧
      SameInode r.inode r'.inode ∧ gone.Perm r.tables := by
  rw [tables_eq] at hnodup hworks ⊢
  obtain ⟨hone, hrest, hapart⟩ := List.nodup_append'.mp hnodup
  obtain ⟨htwo, hthree, hapart'⟩ := List.nodup_append'.mp hrest
  have hmem : ∀ t, t ∈ r.rootTables 13 ∨ t ∈ r.rootTables 14 →
      t ∈ r.rootTables 13 ++ r.rootTables 14 := fun t => List.mem_append.mpr
  obtain ⟨r₁, gone₁, hfree₁, hgone₁⟩ := @freeIndirect_spec bs env r 0 hone fun t ht =>
    hworks t (List.mem_append_left _ ht)
  -- the trees have no table in common, so those to come are as they were
  have htables : r₁.rootTables 13 = r.rootTables 13 ∧ r₁.rootTables 14 = r.rootTables 14 :=
    ⟨hgone₁.rootTables_eq (by decide) fun t ht hown => hapart hown (hmem t (.inl ht)),
      hgone₁.rootTables_eq (by decide) fun t ht hown => hapart hown (hmem t (.inr ht))⟩
  obtain ⟨r₂, gone₂, hfree₂, hgone₂⟩ := @freeIndirect_spec bs env r₁ 1
    (by rw [htables.1]; exact htwo)
    (by rw [htables.1]; exact fun t ht => hworks t (List.mem_append_right _ (hmem t (.inl ht))))
  have hlast : r₂.rootTables 14 = r.rootTables 14 := by
    rw [← htables.2]
    refine hgone₂.rootTables_eq (by decide) ?_
    change ∀ t ∈ r₁.rootTables 14, t ∉ r₁.rootTables 13
    rw [htables.1, htables.2]
    exact fun t ht hown => hapart' hown ht
  obtain ⟨r₃, gone₃, hfree₃, hgone₃⟩ := @freeIndirect_spec bs env r₂ 2
    (by rw [hlast]; exact hthree)
    (by rw [hlast]; exact fun t ht => hworks t (List.mem_append_right _ (hmem t (.inr ht))))
  refine ⟨r₃, gone₁ ++ (gone₂ ++ gone₃), ?_, ?_, ?_, ?_, ?_⟩
  · rw [freeMap, hmapped, if_neg Bool.false_ne_true, hfree₁]
    change (freeIndirect env 1 r₁ >>= _) = _
    rw [hfree₂]
    exact hfree₃
  · rw [hgone₃.freed, hgone₂.freed, hgone₁.freed, List.append_assoc, List.append_assoc]
  · rw [hgone₃.taken, hgone₂.taken, hgone₁.taken]
  · exact (hgone₁.inode.trans hgone₂.inode).trans hgone₃.inode
  · have hperm₂ : gone₂.Perm (r.rootTables 13) := htables.1 ▸ hgone₂.tables
    have hperm₃ : gone₃.Perm (r.rootTables 14) := hlast ▸ hgone₃.tables
    exact hgone₁.tables.append (hperm₂.append hperm₃)

/-- **The end of an inode without data**: its tables and the block of its attributes are given
    back. -/
theorem freeInode_spec (hino : env.freeIno = none) (hmapped : mappedByExtents env r.inode = false)
    (hnodup : r.tables.Nodup)
    (hworks : ∀ t ∈ r.tables, env.unread t = none ∧ env.refused t = none)
    (hacl : r.inode.fileAcl ≠ 0 → env.refused r.inode.fileAcl = none) :
    ∃ r', freeInode env r = .ok r' ∧ r'.taken = r.taken ∧
      r'.freed.Perm (r.freed ++ (r.tables ++ aclBlocks r)) := by
  obtain ⟨r₁, gone, hmap, hfreed, htaken, hinode, hperm⟩ := freeMap_spec hmapped hnodup hworks
  have hsame := hinode.acl
  unfold freeInode
  rw [hmap, hino]
  by_cases hzero : r.inode.fileAcl = 0
  · have hattr : freeAcl env r₁ = .ok r₁ := if_pos (hsame.trans hzero)
    refine ⟨r₁, congrArg (· >>= Except.ok) hattr, htaken, ?_⟩
    rw [hfreed, aclBlocks, if_pos hzero, List.append_nil]
    exact hperm.append_left r.freed
  · have hne : r₁.inode.fileAcl ≠ 0 := fun hnull => hzero (hsame.symm.trans hnull)
    have hattr : freeAcl env r₁ = .ok { r₁.given env r₁.inode.fileAcl with
        inode := { (r₁.given env r₁.inode.fileAcl).inode with fileAcl := 0 } } := by
      rw [freeAcl, if_neg hne, freeBlock_eq (hsame ▸ hacl hzero)]
      rfl
    refine ⟨_, congrArg (· >>= Except.ok) hattr, htaken, ?_⟩
    change (r₁.freed ++ [r₁.inode.fileAcl]).Perm _
    rw [hfreed, hsame, aclBlocks, if_neg hzero, List.append_assoc]
    exact (hperm.append_right _).append_left r.freed

end Blockmap

import OpenExt4.Blockmap.Blocks
import OpenExt4.Lib.TableTree

set_option autoImplicit false

/-! # The map of an inode with block pointers

The fifteen pointers of an inode are the roots of trees of tables: twelve of level 0, and one each
of the levels 1 to 3. A logical block has its place in one of them. -/

namespace Blockmap

open Bytes TableTree

variable {bs : ℕ} {env : Env bs} {r r' : Ref bs} {b j k l off : ℕ}

/-! ## Tables in the cache -/

/-- The pointers in the tables, as the cache shows them. -/
def Ref.heap (r : Ref bs) (t i : ℕ) : ℕ := pointer (r.look t) i

theorem heap_congr {t : ℕ} (h : r'.look t = r.look t) : r'.heap t = r.heap t := by
  funext i
  rw [Ref.heap, Ref.heap, h]

theorem heap_loaded (r : Ref bs) (b : ℕ) : (r.loaded b).heap = r.heap :=
  funext fun t => heap_congr (look_loaded r b t)

theorem heap_given {t : ℕ} (hne : t ≠ b) : (r.given env b).heap t = r.heap t :=
  heap_congr (look_given hne)

theorem heap_zeros (r : Ref bs) (b : ℕ) :
    (r.setBlock b (zeros bs)).heap = Function.update r.heap b fun _ => 0 := by
  funext t i
  rw [Ref.heap, look_setBlock, Function.update_apply]
  split
  · have hzeros : ∀ w o, getLE w (zeros bs) o = 0 := by
      intro w
      induction w with
      | zero => exact fun _ => rfl
      | succ w ih =>
          intro o
          have hbyte : get8 (zeros bs) o = 0 := by
            unfold get8 zeros
            split <;> rfl
          rw [getLE, hbyte, ih]
          rfl
    exact hzeros 4 _
  · rfl

theorem heap_setSlot {p slot v : ℕ} (hslot : slot < bs / 4) :
    (r.setBlock p (putLE 4 (r.look p) (4 * slot) v)).heap = setSlot r.heap p slot (v % 2 ^ 32) := by
  funext t i
  rw [Ref.heap, look_setBlock, setSlot, Function.update_apply]
  by_cases ht : t = p
  · rw [if_pos ht, if_pos ht, Function.update_apply, pointer]
    by_cases hi : i = slot
    · rw [if_pos hi, hi, getLE_putLE (by omega)]
      rfl
    · have hapart : 4 * i + 4 ≤ 4 * slot ∨ 4 * slot + 4 ≤ 4 * i := by omega
      rw [if_neg hi, putLE, getLE_patch_of_disjoint hapart]
      rfl
  · rw [if_neg ht, if_neg ht]
    rfl

/-! ## Places -/

/-- The first logical block of the tree of root `j`. -/
def firstBlock (bs j : ℕ) : ℕ := if j < 12 then j else blockLimits bs (j - 12)

/-- Logical block `k` is at place `off` of the tree of root `j`. -/
structure Placed (bs k j off : ℕ) : Prop where
  root : j < 15
  place : off < (bs / 4) ^ (j - 11)
  block : k = firstBlock bs j + off

theorem blockLimits_one : blockLimits bs 1 = 12 + (bs / 4) ^ 1 := rfl

theorem blockLimits_two : blockLimits bs 2 = 12 + (bs / 4) ^ 1 + (bs / 4) ^ 2 := rfl

theorem blockLimits_three :
    blockLimits bs 3 = 12 + (bs / 4) ^ 1 + (bs / 4) ^ 2 + (bs / 4) ^ 3 := rfl

/-- Every logical block that the format allows has a place. -/
theorem exists_placed (hk : k < blockLimits bs 3) : ∃ j off, Placed bs k j off := by
  rw [blockLimits_three] at hk
  by_cases hdirect : k < 12
  · refine ⟨k, 0, by omega, ?_, ?_⟩
    · rw [show k - 11 = 0 by omega]
      exact Nat.zero_lt_one
    · rw [firstBlock, if_pos hdirect, Nat.add_zero]
  by_cases hone : k < 12 + (bs / 4) ^ 1
  · refine ⟨12, k - 12, by decide, ?_, ?_⟩
    · change k - 12 < (bs / 4) ^ 1
      omega
    · change k = 12 + (k - 12)
      omega
  by_cases htwo : k < 12 + (bs / 4) ^ 1 + (bs / 4) ^ 2
  · refine ⟨13, k - (12 + (bs / 4) ^ 1), by decide, ?_, ?_⟩
    · change _ < (bs / 4) ^ 2
      omega
    · change k = 12 + (bs / 4) ^ 1 + _
      omega
  · refine ⟨14, k - (12 + (bs / 4) ^ 1 + (bs / 4) ^ 2), by decide, ?_, ?_⟩
    · change _ < (bs / 4) ^ 3
      omega
    · change k = 12 + (bs / 4) ^ 1 + (bs / 4) ^ 2 + _
      omega

/-- The place of a direct block. -/
theorem Placed.direct (h : Placed bs k j off) (hj : j < 12) : off = 0 ∧ k = j := by
  have hplace := h.place
  have hblock := h.block
  rw [show j - 11 = 0 by omega, Nat.pow_zero] at hplace
  rw [firstBlock, if_pos hj] at hblock
  omega

/-- The place of a block behind tables. -/
theorem Placed.level (h : Placed bs k j off) (hj : 12 ≤ j) :
    ∃ l < 3, j = l + 12 ∧ 12 ≤ k ∧ k < blockLimits bs 3 ∧ levelOf bs k = l + 1 ∧
      k - blockLimits bs l = off := by
  have hplace := h.place
  have hblock := h.block
  have hroot := h.root
  rw [firstBlock, if_neg (Nat.not_lt.mpr hj)] at hblock
  unfold levelOf
  obtain rfl | rfl | rfl : j = 12 ∨ j = 13 ∨ j = 14 := by omega
  · change off < (bs / 4) ^ 1 at hplace
    change k = 12 + off at hblock
    refine ⟨0, by decide, rfl, by omega, ?_, ?_, ?_⟩
    · rw [blockLimits_three]
      omega
    · rw [if_pos (by rw [blockLimits_one]; omega)]
    · change k - 12 = off
      omega
  · change off < (bs / 4) ^ 2 at hplace
    change k = 12 + (bs / 4) ^ 1 + off at hblock
    refine ⟨1, by decide, rfl, by omega, ?_, ?_, ?_⟩
    · rw [blockLimits_three]
      omega
    · rw [if_neg (by rw [blockLimits_one]; omega), if_pos (by rw [blockLimits_two]; omega)]
    · rw [blockLimits_one]
      omega
  · change off < (bs / 4) ^ 3 at hplace
    change k = 12 + (bs / 4) ^ 1 + (bs / 4) ^ 2 + off at hblock
    refine ⟨2, by decide, rfl, by omega, ?_, ?_, ?_⟩
    · rw [blockLimits_three]
      omega
    · rw [if_neg (by rw [blockLimits_one]; omega), if_neg (by rw [blockLimits_two]; omega),
        if_pos (by rw [blockLimits_three]; omega)]
    · rw [blockLimits_two]
      omega

/-- A logical block has one place. -/
theorem Placed.unique {j' off' : ℕ} (h : Placed bs k j off) (h' : Placed bs k j' off') :
    j' = j ∧ off' = off := by
  by_cases hj : j < 12
  · have hk := (h.direct hj).2
    have hj' : j' < 12 := by
      by_contra hge
      obtain ⟨l, -, -, hle, -⟩ := h'.level (Nat.not_lt.mp hge)
      omega
    have hk' := (h'.direct hj').2
    refine ⟨by omega, ?_⟩
    rw [(h.direct hj).1, (h'.direct hj').1]
  · obtain ⟨l, -, hl, hle, -, hlevel, hoff⟩ := h.level (Nat.not_lt.mp hj)
    have hj' : 12 ≤ j' := by
      by_contra hlt
      have hk := (h'.direct (Nat.not_le.mp hlt)).2
      omega
    obtain ⟨l', -, hl', -, -, hlevel', hoff'⟩ := h'.level hj'
    rw [hlevel] at hlevel'
    obtain rfl : l = l' := Nat.succ.inj hlevel'
    exact ⟨hl'.trans hl.symm, hoff'.symm.trans hoff⟩

theorem Placed.lt (h : Placed bs k j off) : k < blockLimits bs 3 := by
  by_cases hj : j < 12
  · have hk := (h.direct hj).2
    rw [blockLimits_three]
    omega
  · obtain ⟨l, -, -, -, hlt, -⟩ := h.level (Nat.not_lt.mp hj)
    exact hlt

/-! ## The map -/

/-- The tree of root `j`: its pointers, its tables, and the block at a place. -/
def Ref.rootNodes (r : Ref bs) (j : ℕ) : List ℕ :=
  nodes (bs / 4) r.heap (j - 11) (r.inode.directBlock j)

def Ref.rootTables (r : Ref bs) (j : ℕ) : List ℕ :=
  tables (bs / 4) r.heap (j - 11) (r.inode.directBlock j)

def Ref.rootLeaf (r : Ref bs) (j off : ℕ) : ℕ :=
  leafAt (bs / 4) r.heap (j - 11) (r.inode.directBlock j) off

/-- Every block of the map, the tables included. -/
def Ref.nodes (r : Ref bs) : List ℕ := (List.range 15).flatMap r.rootNodes

def Ref.tables (r : Ref bs) : List ℕ := (List.range 15).flatMap r.rootTables

/-- The block of logical block `k`, 0 for a hole. -/
def Ref.blockAt (r : Ref bs) (k : ℕ) : ℕ :=
  if k < EXT4_INODE_DIRECT_BLOCK_COUNT then r.inode.directBlock k
  else
    match levelOf bs k with
    | 0 => 0
    | l + 1 => leafAt (bs / 4) r.heap (l + 1) (r.inode.indirectBlock l) (k - blockLimits bs l)

theorem Placed.blockAt (h : Placed bs k j off) (r : Ref bs) : r.blockAt k = r.rootLeaf j off := by
  by_cases hj : j < 12
  · obtain ⟨rfl, rfl⟩ := h.direct hj
    rw [Ref.blockAt, if_pos (show k < EXT4_INODE_DIRECT_BLOCK_COUNT from hj), Ref.rootLeaf,
      show k - 11 = 0 by omega]
    rfl
  · obtain ⟨l, -, rfl, hle, -, hlevel, hoff⟩ := h.level (Nat.not_lt.mp hj)
    rw [Ref.blockAt, if_neg (show ¬ k < EXT4_INODE_DIRECT_BLOCK_COUNT from Nat.not_lt.mpr hle),
      hlevel]
    change leafAt (bs / 4) r.heap (l + 1) (r.inode.indirectBlock l) (k - blockLimits bs l) = _
    rw [hoff]
    rfl

theorem mem_nodes_iff : b ∈ r.nodes ↔ ∃ j < 15, b ∈ r.rootNodes j := by
  simp only [Ref.nodes, List.mem_flatMap, List.mem_range]

theorem mem_tables_iff : b ∈ r.tables ↔ ∃ j < 15, b ∈ r.rootTables j := by
  simp only [Ref.tables, List.mem_flatMap, List.mem_range]

theorem tables_sublist_nodes (r : Ref bs) : r.tables.Sublist r.nodes :=
  List.Sublist.flatMap_right _ fun _ _ => tables_sublist

/-- A block of the map is a table or is mapped. -/
theorem mem_nodes_cases :
    b ∈ r.nodes ↔ b ∈ r.tables ∨ b ≠ 0 ∧ ∃ k < blockLimits bs 3, r.blockAt k = b := by
  rw [mem_nodes_iff, mem_tables_iff]
  constructor
  · rintro ⟨j, hj, hmem⟩
    rcases mem_nodes.mp hmem with htable | ⟨hne, off, hoff, hleaf⟩
    · exact .inl ⟨j, hj, htable⟩
    · have hplaced : Placed bs (firstBlock bs j + off) j off := ⟨hj, hoff, rfl⟩
      exact .inr ⟨hne, _, hplaced.lt, (hplaced.blockAt r).trans hleaf⟩
  · rintro (⟨j, hj, htable⟩ | ⟨hne, k, hk, hblock⟩)
    · exact ⟨j, hj, mem_nodes_of_table htable⟩
    · obtain ⟨j, off, hplaced⟩ := exists_placed hk
      rw [hplaced.blockAt] at hblock
      exact ⟨j, hplaced.root, mem_nodes.mpr (.inr ⟨hne, off, hplaced.place, hblock⟩)⟩

/-! ## Maps without a block twice -/

section Nodup

variable (hnodup : r.nodes.Nodup)

include hnodup in
theorem rootNodes_nodup (hj : j < 15) : (r.rootNodes j).Nodup :=
  (List.nodup_flatMap.mp hnodup).1 j (List.mem_range.mpr hj)

include hnodup in
theorem rootNodes_disjoint {j' : ℕ} (hj : j < 15) (hj' : j' < 15) (hne : j ≠ j') {b : ℕ}
    (hb : b ∈ r.rootNodes j) : b ∉ r.rootNodes j' := by
  have hsymm : Std.Symm (Function.onFun List.Disjoint r.rootNodes) :=
    ⟨fun _ _ hdisjoint _ hb hb' => hdisjoint hb' hb⟩
  exact fun hb' => (List.nodup_flatMap.mp hnodup).2.forall (List.mem_range.mpr hj)
    (List.mem_range.mpr hj') hne hb hb'

include hnodup in
/-- **No block is mapped twice.** -/
theorem blockAt_inj {k' : ℕ} (hk : k < blockLimits bs 3) (hk' : k' < blockLimits bs 3)
    (heq : r.blockAt k = r.blockAt k') (hne : r.blockAt k ≠ 0) : k = k' := by
  obtain ⟨j, off, hplaced⟩ := exists_placed hk
  obtain ⟨j', off', hplaced'⟩ := exists_placed hk'
  have hne' : r.blockAt k' ≠ 0 := heq ▸ hne
  rw [hplaced.blockAt, hplaced'.blockAt] at heq
  rw [hplaced.blockAt] at hne
  rw [hplaced'.blockAt] at hne'
  by_cases hroot : j = j'
  · subst hroot
    have hoff := leafAt_inj (rootNodes_nodup hnodup hplaced.root) hplaced.place hplaced'.place heq
      hne
    rw [hplaced.block, hplaced'.block, hoff]
  · have hmem : r.rootLeaf j off ∈ r.rootNodes j := leafAt_mem hplaced.place hne
    have hmem' : r.rootLeaf j' off' ∈ r.rootNodes j' := leafAt_mem hplaced'.place hne'
    exact absurd (heq ▸ hmem') (rootNodes_disjoint hnodup hplaced.root hplaced'.root hroot hmem)

end Nodup

end Blockmap

import Mathlib.Data.List.Basic
import Mathlib.Data.List.Flatten
import Mathlib.Data.List.Nodup
import Mathlib.Data.List.Pairwise
import Mathlib.Data.List.Perm.Basic
import Mathlib.Data.Nat.ModEq
import Mathlib.Logic.Function.Basic

set_option autoImplicit false

/-! # Trees of pointer tables

Tables of `N` pointers each, in a heap that gives a table's pointer in a slot; the pointer `0` is
none. A tree of level `l` is reached through one pointer: a leaf at level 0, else a table of trees
of the level below. A place among the `N ^ l` leaves of a tree is found digit by digit. As long as
no two pointers of a tree are equal, a leaf is cleared without a change anywhere else. -/

namespace TableTree

variable (N : ℕ) (h h' : ℕ → ℕ → ℕ)

/-- The leaf at place `off` of the tree that `p` points to. -/
def leafAt : ℕ → ℕ → ℕ → ℕ
  | 0, p, _ => p
  | l + 1, p, off => if p = 0 then 0 else leafAt l (h p (off / N ^ l)) (off % N ^ l)

/-- Every pointer of the tree, the one to it included. -/
def nodes : ℕ → ℕ → List ℕ
  | 0, p => if p = 0 then [] else [p]
  | l + 1, p => if p = 0 then [] else p :: (List.range N).flatMap fun i => nodes l (h p i)

/-- The pointers to tables. -/
def tables : ℕ → ℕ → List ℕ
  | 0, _ => []
  | l + 1, p => if p = 0 then [] else p :: (List.range N).flatMap fun i => tables l (h p i)

/-- The heap with another pointer in a slot. -/
def setSlot (t i v : ℕ) : ℕ → ℕ → ℕ := Function.update h t (Function.update (h t) i v)

/-- The heap without the leaf at place `off`. -/
def clearLeaf : ℕ → ℕ → ℕ → ℕ → ℕ → ℕ
  | 0, _, _ => h
  | l + 1, p, off =>
      if p = 0 then h
      else if l = 0 then setSlot h p off 0
      else clearLeaf l (h p (off / N ^ l)) (off % N ^ l)

variable {N h h'} {l p off off' t b : ℕ}

/-! ## Members -/

theorem leafAt_null : leafAt N h l 0 off = 0 := by
  cases l <;> rfl

theorem nodes_null : nodes N h l 0 = [] := by
  cases l <;> rfl

theorem tables_null : tables N h l 0 = [] := by
  cases l <;> rfl

theorem leafAt_succ (hp : p ≠ 0) :
    leafAt N h (l + 1) p off = leafAt N h l (h p (off / N ^ l)) (off % N ^ l) := by
  rw [leafAt, if_neg hp]

theorem nodes_succ (hp : p ≠ 0) :
    nodes N h (l + 1) p = p :: (List.range N).flatMap fun i => nodes N h l (h p i) := by
  rw [nodes, if_neg hp]

theorem tables_succ (hp : p ≠ 0) :
    tables N h (l + 1) p = p :: (List.range N).flatMap fun i => tables N h l (h p i) := by
  rw [tables, if_neg hp]

theorem mem_tables_root (hp : p ≠ 0) : p ∈ tables N h (l + 1) p := by
  rw [tables_succ hp]
  exact List.mem_cons_self

theorem div_lt (hoff : off < N ^ (l + 1)) : off / N ^ l < N := by
  refine Nat.div_lt_of_lt_mul ?_
  rwa [← Nat.pow_succ]

theorem mod_lt (hoff : off < N ^ (l + 1)) : off % N ^ l < N ^ l := by
  refine Nat.mod_lt _ (Nat.pos_of_ne_zero fun hzero => ?_)
  rw [Nat.pow_succ, hzero, Nat.zero_mul] at hoff
  exact Nat.not_lt_zero _ hoff

/-- The place of leaf `off` of the subtree in slot `i`. -/
theorem place_lt {i : ℕ} (hi : i < N) (hoff : off < N ^ l) : i * N ^ l + off < N ^ (l + 1) := by
  calc i * N ^ l + off < i * N ^ l + N ^ l := Nat.add_lt_add_left hoff _
    _ = (i + 1) * N ^ l := (Nat.succ_mul i _).symm
    _ ≤ N * N ^ l := Nat.mul_le_mul_right _ hi
    _ = N ^ (l + 1) := (Nat.pow_succ' ..).symm

theorem leafAt_place {i : ℕ} (hp : p ≠ 0) (hoff : off < N ^ l) :
    leafAt N h (l + 1) p (i * N ^ l + off) = leafAt N h l (h p i) off := by
  have hpos : 0 < N ^ l := Nat.zero_lt_of_lt hoff
  have hdiv : (i * N ^ l + off) / N ^ l = i := by
    rw [Nat.mul_comm, Nat.mul_add_div hpos, Nat.div_eq_of_lt hoff, Nat.add_zero]
  have hmod : (i * N ^ l + off) % N ^ l = off := by
    rw [Nat.mul_comm, Nat.mul_add_mod, Nat.mod_eq_of_lt hoff]
  rw [leafAt_succ hp, hdiv, hmod]

/-- Every node is a table or a leaf. -/
theorem mem_nodes :
    b ∈ nodes N h l p ↔ b ∈ tables N h l p ∨ b ≠ 0 ∧ ∃ off < N ^ l, leafAt N h l p off = b := by
  induction l generalizing p with
  | zero =>
      by_cases hp : p = 0
      · subst hp
        simp only [nodes, tables, leafAt, if_true, List.not_mem_nil, false_or, false_iff]
        rintro ⟨hb, -, -, rfl⟩
        exact hb rfl
      · simp only [nodes, tables, leafAt, if_neg hp, List.mem_singleton, List.not_mem_nil, false_or]
        refine ⟨?_, fun hleaf => ?_⟩
        · rintro rfl
          exact ⟨hp, 0, by simp, rfl⟩
        · obtain ⟨-, -, -, rfl⟩ := hleaf
          rfl
  | succ l ih =>
      by_cases hp : p = 0
      · subst hp
        simp only [nodes, tables, leafAt_null, if_true, List.not_mem_nil, false_or, false_iff]
        rintro ⟨hb, -, -, rfl⟩
        exact hb rfl
      · simp only [nodes, tables, if_neg hp, List.mem_cons, List.mem_flatMap, List.mem_range, ih]
        constructor
        · rintro (rfl | ⟨i, hi, htable | ⟨hb, off, hoff, rfl⟩⟩)
          · exact .inl (.inl rfl)
          · exact .inl (.inr ⟨i, hi, htable⟩)
          · exact .inr ⟨hb, i * N ^ l + off, place_lt hi hoff, leafAt_place hp hoff⟩
        · rintro ((rfl | ⟨i, hi, htable⟩) | ⟨hb, off, hoff, rfl⟩)
          · exact .inl rfl
          · exact .inr ⟨i, hi, .inl htable⟩
          · refine .inr ⟨off / N ^ l, div_lt hoff, .inr ⟨hb, off % N ^ l, mod_lt hoff, ?_⟩⟩
            rw [leafAt_succ hp]

theorem mem_nodes_of_table (ht : t ∈ tables N h l p) : t ∈ nodes N h l p :=
  mem_nodes.mpr (.inl ht)

theorem leafAt_mem (hoff : off < N ^ l) (hleaf : leafAt N h l p off ≠ 0) :
    leafAt N h l p off ∈ nodes N h l p :=
  mem_nodes.mpr (.inr ⟨hleaf, off, hoff, rfl⟩)

theorem ne_zero_of_mem (hb : b ∈ nodes N h l p) : b ≠ 0 := by
  induction l generalizing p with
  | zero =>
      unfold nodes at hb
      split at hb
      · simp at hb
      · next hp => exact List.mem_singleton.mp hb ▸ hp
  | succ l ih =>
      unfold nodes at hb
      split at hb
      · simp at hb
      · next hp =>
          rcases List.mem_cons.mp hb with rfl | hrest
          · exact hp
          · obtain ⟨i, -, hi⟩ := List.mem_flatMap.mp hrest
            exact ih hi

theorem tables_sublist : (tables N h l p).Sublist (nodes N h l p) := by
  induction l generalizing p with
  | zero => exact List.nil_sublist _
  | succ l ih =>
      rw [tables, nodes]
      split
      · exact List.Sublist.refl _
      · exact List.Sublist.cons_cons _ (List.Sublist.flatMap_right _ fun _ _ => ih)

/-- A tree without leaves is its tables. -/
theorem nodes_eq_tables (hnone : ∀ off < N ^ l, leafAt N h l p off = 0) :
    nodes N h l p = tables N h l p := by
  induction l generalizing p with
  | zero =>
      have hp : p = 0 := hnone 0 (by simp)
      rw [hp, nodes_null, tables_null]
  | succ l ih =>
      by_cases hp : p = 0
      · rw [hp, nodes_null, tables_null]
      · rw [nodes_succ hp, tables_succ hp]
        congr 1
        refine List.flatMap_congr fun i hi => ih fun off hoff => ?_
        rw [← leafAt_place hp hoff]
        exact hnone _ (place_lt (List.mem_range.mp hi) hoff)

/-- One of the lists that are strung together gets more members. -/
theorem flatMap_slot {α : Type} {f f' : ℕ → List α} {extra : List α} {i : ℕ} (hi : i < N)
    (hslot : (f' i).Perm (f i ++ extra)) (hothers : ∀ j < N, j ≠ i → f' j = f j) :
    ((List.range N).flatMap f').Perm ((List.range N).flatMap f ++ extra) := by
  have hextra : (List.range N).flatMap (fun j => if j = i then extra else []) = extra := by
    rw [← List.take_append_drop i (List.range N), List.flatMap_append]
    have hdrop : (List.range N).drop i = i :: (List.range N).drop (i + 1) := by
      rw [List.drop_eq_getElem_cons (by simpa using hi), List.getElem_range]
    have hbefore : ((List.range N).take i).flatMap (fun j => if j = i then extra else []) = [] := by
      refine List.flatMap_eq_nil_iff.mpr fun j hj => if_neg ?_
      rintro rfl
      rw [List.take_range] at hj
      have hlt := List.mem_range.mp hj
      omega
    have hbehind :
        ((List.range N).drop (i + 1)).flatMap (fun j => if j = i then extra else []) = [] := by
      refine List.flatMap_eq_nil_iff.mpr fun j hj => if_neg ?_
      rintro rfl
      obtain ⟨k, hk, hget⟩ := List.mem_drop_iff_getElem.mp hj
      rw [List.getElem_range] at hget
      omega
    rw [hbefore, hdrop, List.flatMap_cons, if_pos rfl, hbehind, List.nil_append, List.append_nil]
  have heach : ∀ j ∈ List.range N, (f' j).Perm (f j ++ if j = i then extra else []) := by
    intro j hj
    by_cases hji : j = i
    · subst hji
      rw [if_pos rfl]
      exact hslot
    · rw [if_neg hji, List.append_nil, hothers j (List.mem_range.mp hj) hji]
  have hmore := List.Perm.flatMap_left (List.range N) heach
  refine hmore.trans ?_
  have happend := List.flatMap_append_perm (List.range N) f fun j => if j = i then extra else []
  rw [hextra] at happend
  exact happend.symm

/-! ## Trees without a pointer twice -/

/-- The subtrees of a table have no pointer twice, none in common and none to the table. -/
theorem nodup_subtrees (hp : p ≠ 0) (hnodup : (nodes N h (l + 1) p).Nodup) :
    (∀ i < N, (nodes N h l (h p i)).Nodup ∧ p ∉ nodes N h l (h p i)) ∧
      ∀ i < N, ∀ j < N, i ≠ j → ∀ b ∈ nodes N h l (h p i), b ∉ nodes N h l (h p j) := by
  rw [nodes_succ hp, List.nodup_cons, List.nodup_flatMap] at hnodup
  obtain ⟨hroot, heach, hpairs⟩ := hnodup
  refine ⟨fun i hi => ⟨heach i (List.mem_range.mpr hi), fun hmem => hroot ?_⟩,
    fun i hi j hj hne b hb hb' => ?_⟩
  · exact List.mem_flatMap.mpr ⟨i, List.mem_range.mpr hi, hmem⟩
  · have hsymm : Std.Symm (Function.onFun List.Disjoint fun i => nodes N h l (h p i)) :=
      ⟨fun _ _ hdisjoint _ hb hb' => hdisjoint hb' hb⟩
    exact hpairs.forall (List.mem_range.mpr hi) (List.mem_range.mpr hj) hne hb hb'

/-- A leaf is in one place only. -/
theorem leafAt_inj (hnodup : (nodes N h l p).Nodup) (hoff : off < N ^ l) (hoff' : off' < N ^ l)
    (heq : leafAt N h l p off = leafAt N h l p off') (hleaf : leafAt N h l p off ≠ 0) :
    off = off' := by
  induction l generalizing p off off' with
  | zero => simp at hoff hoff'; omega
  | succ l ih =>
      have hp : p ≠ 0 := by
        rintro rfl
        exact hleaf leafAt_null
      obtain ⟨heach, hpairs⟩ := nodup_subtrees hp hnodup
      rw [leafAt_succ hp, leafAt_succ hp] at heq
      rw [leafAt_succ hp] at hleaf
      by_cases hdiv : off / N ^ l = off' / N ^ l
      · rw [hdiv] at heq hleaf
        have hmod := ih (heach _ (div_lt hoff')).1 (mod_lt hoff) (mod_lt hoff') heq hleaf
        rw [← Nat.div_add_mod off (N ^ l), ← Nat.div_add_mod off' (N ^ l), hdiv, hmod]
      · have hmem := leafAt_mem (mod_lt hoff) hleaf
        have hmem' := leafAt_mem (mod_lt hoff') (heq ▸ hleaf)
        exact absurd (heq ▸ hmem') (hpairs _ (div_lt hoff) _ (div_lt hoff') hdiv _ hmem)

/-- A leaf is no table. -/
theorem leafAt_not_table (hnodup : (nodes N h l p).Nodup) (hoff : off < N ^ l) :
    leafAt N h l p off ∉ tables N h l p := by
  induction l generalizing p off with
  | zero => simp [tables]
  | succ l ih =>
      by_cases hp : p = 0
      · subst hp
        simp [tables_null]
      obtain ⟨heach, hpairs⟩ := nodup_subtrees hp hnodup
      intro hmem
      rw [leafAt_succ hp, tables, if_neg hp] at hmem
      by_cases hleaf : leafAt N h l (h p (off / N ^ l)) (off % N ^ l) = 0
      · rw [hleaf] at hmem
        rcases List.mem_cons.mp hmem with hzero | hrest
        · exact hp hzero.symm
        · obtain ⟨i, -, hi⟩ := List.mem_flatMap.mp hrest
          exact ne_zero_of_mem (mem_nodes_of_table hi) rfl
      · have hnode := leafAt_mem (mod_lt hoff) hleaf
        rcases List.mem_cons.mp hmem with hroot | hrest
        · rw [hroot] at hnode
          exact (heach _ (div_lt hoff)).2 hnode
        · obtain ⟨i, hi, htable⟩ := List.mem_flatMap.mp hrest
          by_cases hsame : i = off / N ^ l
          · exact ih (heach _ (div_lt hoff)).1 (mod_lt hoff) (hsame ▸ htable)
          · exact hpairs _ (List.mem_range.mp hi) _ (div_lt hoff) hsame _
              (mem_nodes_of_table htable) hnode

/-! ## Other heaps -/

/-- The two heaps agree on the tables of a tree. -/
def Agree (N : ℕ) (h h' : ℕ → ℕ → ℕ) (l p : ℕ) : Prop :=
  ∀ t ∈ tables N h l p, ∀ i < N, h' t i = h t i

theorem Agree.root (hagree : Agree N h h' (l + 1) p) (hp : p ≠ 0) {i : ℕ} (hi : i < N) :
    h' p i = h p i := by
  refine hagree p ?_ i hi
  rw [tables_succ hp]
  exact List.mem_cons_self

theorem Agree.child (hagree : Agree N h h' (l + 1) p) (hp : p ≠ 0) {i : ℕ} (hi : i < N) :
    Agree N h h' l (h p i) := by
  refine fun t ht => hagree t ?_
  rw [tables_succ hp]
  exact List.mem_cons_of_mem _ (List.mem_flatMap.mpr ⟨i, List.mem_range.mpr hi, ht⟩)

theorem Agree.leafAt_eq (hagree : Agree N h h' l p) (hoff : off < N ^ l) :
    leafAt N h' l p off = leafAt N h l p off := by
  induction l generalizing p off with
  | zero => rfl
  | succ l ih =>
      by_cases hp : p = 0
      · rw [hp, leafAt_null, leafAt_null]
      · rw [leafAt_succ hp, leafAt_succ hp, hagree.root hp (div_lt hoff)]
        exact ih (hagree.child hp (div_lt hoff)) (mod_lt hoff)

theorem Agree.nodes_eq (hagree : Agree N h h' l p) : nodes N h' l p = nodes N h l p := by
  induction l generalizing p with
  | zero => rfl
  | succ l ih =>
      by_cases hp : p = 0
      · rw [hp, nodes_null, nodes_null]
      · rw [nodes_succ hp, nodes_succ hp]
        congr 1
        refine List.flatMap_congr fun i hi => ?_
        have hlt := List.mem_range.mp hi
        rw [hagree.root hp hlt, ih (hagree.child hp hlt)]

theorem Agree.tables_eq (hagree : Agree N h h' l p) : tables N h' l p = tables N h l p := by
  induction l generalizing p with
  | zero => rfl
  | succ l ih =>
      by_cases hp : p = 0
      · rw [hp, tables_null, tables_null]
      · rw [tables_succ hp, tables_succ hp]
        congr 1
        refine List.flatMap_congr fun i hi => ?_
        have hlt := List.mem_range.mp hi
        rw [hagree.root hp hlt, ih (hagree.child hp hlt)]

/-! ## A leaf goes -/

/-- Only tables of the tree change. -/
theorem clearLeaf_frame (hoff : off < N ^ l) (ht : t ∉ tables N h l p) :
    clearLeaf N h l p off t = h t := by
  induction l generalizing p off with
  | zero => rfl
  | succ l ih =>
      by_cases hp : p = 0
      · rw [clearLeaf, if_pos hp]
      · rw [tables, if_neg hp, List.mem_cons, not_or] at ht
        rw [clearLeaf, if_neg hp]
        by_cases hl : l = 0
        · rw [if_pos hl]
          exact Function.update_of_ne ht.1 _ _
        · rw [if_neg hl]
          exact ih (mod_lt hoff) fun hmem => ht.2
            (List.mem_flatMap.mpr ⟨_, List.mem_range.mpr (div_lt hoff), hmem⟩)

/-- The subtrees of a table after a leaf went from one of them. -/
theorem clearLeaf_child (hp : p ≠ 0) (hl : l ≠ 0) (hnodup : (nodes N h (l + 1) p).Nodup)
    (hoff : off < N ^ (l + 1)) {i : ℕ} (hi : i < N) :
    clearLeaf N h (l + 1) p off p i = h p i ∧
      (i ≠ off / N ^ l → Agree N h (clearLeaf N h (l + 1) p off) l (h p i)) := by
  obtain ⟨heach, hpairs⟩ := nodup_subtrees hp hnodup
  have hclear : clearLeaf N h (l + 1) p off
      = clearLeaf N h l (h p (off / N ^ l)) (off % N ^ l) := by
    rw [clearLeaf, if_neg hp, if_neg hl]
  rw [hclear]
  constructor
  · rw [clearLeaf_frame (mod_lt hoff)]
    exact fun hmem => (heach _ (div_lt hoff)).2 (mem_nodes_of_table hmem)
  · intro hne t ht j _
    rw [clearLeaf_frame (mod_lt hoff)]
    exact fun hmem => hpairs i hi _ (div_lt hoff) hne t (mem_nodes_of_table ht)
      (mem_nodes_of_table hmem)

theorem leafAt_one (hp : p ≠ 0) : leafAt N h 1 p off = h p off := by
  rw [leafAt_succ hp, leafAt, Nat.pow_zero, Nat.div_one]

/-- **A leaf that is cleared** is gone and the others are there. -/
theorem leafAt_clearLeaf (hnodup : (nodes N h l p).Nodup) (hl : l ≠ 0) (hoff : off < N ^ l)
    (hoff' : off' < N ^ l) :
    leafAt N (clearLeaf N h l p off) l p off' = if off' = off then 0 else leafAt N h l p off' := by
  induction l generalizing p off off' with
  | zero => exact absurd rfl hl
  | succ l ih =>
      by_cases hp : p = 0
      · rw [hp, leafAt_null, leafAt_null]
        split <;> rfl
      by_cases hlast : l = 0
      · subst hlast
        rw [leafAt_one hp, leafAt_one hp, clearLeaf, if_neg hp, if_pos rfl, setSlot,
          Function.update_self, Function.update_apply]
      · obtain ⟨heach, -⟩ := nodup_subtrees hp hnodup
        obtain ⟨hroot, hagree⟩ := clearLeaf_child hp hlast hnodup hoff (div_lt hoff')
        rw [leafAt_succ hp, hroot]
        by_cases hdiv : off' / N ^ l = off / N ^ l
        · have hchild := ih (heach _ (div_lt hoff)).1 hlast (mod_lt hoff) (mod_lt hoff')
          have hsame : off' % N ^ l = off % N ^ l ↔ off' = off := by
            refine ⟨fun hmod => ?_, fun heq => by rw [heq]⟩
            rw [← Nat.div_add_mod off' (N ^ l), ← Nat.div_add_mod off (N ^ l), hdiv, hmod]
          rw [hdiv, clearLeaf, if_neg hp, if_neg hlast, hchild, leafAt, if_neg hp, hdiv]
          simp only [hsame]
        · have hne : off' ≠ off := fun heq => hdiv (by rw [heq])
          rw [(hagree hdiv).leafAt_eq (mod_lt hoff'), if_neg hne, leafAt, if_neg hp]

/-- The tables stay. -/
theorem tables_clearLeaf (hnodup : (nodes N h l p).Nodup) (hoff : off < N ^ l) :
    tables N (clearLeaf N h l p off) l p = tables N h l p := by
  induction l generalizing p off with
  | zero => rfl
  | succ l ih =>
      by_cases hp : p = 0
      · rw [hp, tables_null, tables_null]
      rw [tables_succ hp, tables_succ hp]
      congr 1
      by_cases hlast : l = 0
      · subst hlast
        rfl
      · obtain ⟨heach, -⟩ := nodup_subtrees hp hnodup
        refine List.flatMap_congr fun i hi => ?_
        have hlt := List.mem_range.mp hi
        obtain ⟨hroot, hagree⟩ := clearLeaf_child hp hlast hnodup hoff hlt
        rw [hroot]
        by_cases hdiv : i = off / N ^ l
        · subst hdiv
          rw [clearLeaf, if_neg hp, if_neg hlast]
          exact ih (heach _ hlt).1 (mod_lt hoff)
        · exact (hagree hdiv).tables_eq

/-- **A leaf that is cleared** is the one pointer that goes. -/
theorem nodes_clearLeaf (hnodup : (nodes N h l p).Nodup) (hl : l ≠ 0) (hoff : off < N ^ l) :
    (nodes N h l p).Perm (nodes N (clearLeaf N h l p off) l p ++
      if leafAt N h l p off = 0 then [] else [leafAt N h l p off]) := by
  induction l generalizing p off with
  | zero => exact absurd rfl hl
  | succ l ih =>
      by_cases hp : p = 0
      · subst hp
        rw [nodes_null, nodes_null, leafAt_null, if_pos rfl, List.append_nil]
      obtain ⟨heach, -⟩ := nodup_subtrees hp hnodup
      rw [nodes_succ hp, nodes_succ hp, leafAt_succ hp, List.cons_append]
      refine List.Perm.cons p (flatMap_slot (div_lt hoff) ?_ fun i hi hne => ?_)
      · by_cases hlast : l = 0
        · subst hlast
          rw [clearLeaf, if_neg hp, if_pos rfl, setSlot, Function.update_self, Nat.pow_zero,
            Nat.div_one, Function.update_self, nodes, leafAt, nodes, if_pos rfl, List.nil_append]
        · obtain ⟨hroot, -⟩ := clearLeaf_child hp hlast hnodup hoff (div_lt hoff)
          rw [hroot, clearLeaf, if_neg hp, if_neg hlast]
          exact ih (heach _ (div_lt hoff)).1 hlast (mod_lt hoff)
      · by_cases hlast : l = 0
        · subst hlast
          rw [Nat.pow_zero, Nat.div_one] at hne
          rw [clearLeaf, if_neg hp, if_pos rfl, setSlot, Function.update_self,
            Function.update_of_ne hne]
          rfl
        · obtain ⟨hroot, hagree⟩ := clearLeaf_child hp hlast hnodup hoff hi
          rw [hroot, (hagree hne).nodes_eq]

/-! ## A leaf comes -/

/-- The tree in `h'` is the one in `h` with new tables, and a leaf at a place that had none; `0`
    where no leaf came. -/
structure Grown (N : ℕ) (h h' : ℕ → ℕ → ℕ) (l p off leaf : ℕ) (new : List ℕ) : Prop where
  leaves : ∀ off' < N ^ l, leafAt N h' l p off' =
    if off' = off ∧ leaf ≠ 0 then leaf else leafAt N h l p off'
  nodes : (nodes N h' l p).Perm (nodes N h l p ++ (new ++ if leaf = 0 then [] else [leaf]))
  tables : (tables N h' l p).Perm (tables N h l p ++ new)

variable {leaf q : ℕ} {new new' : List ℕ} {h'' : ℕ → ℕ → ℕ}

theorem Grown.refl (N : ℕ) (h : ℕ → ℕ → ℕ) (l p off : ℕ) : Grown N h h l p off 0 [] where
  leaves _ _ := by
    rw [if_neg fun hboth => hboth.2 rfl]
  nodes := by
    rw [if_pos rfl, List.append_nil, List.append_nil]
  tables := by
    rw [List.append_nil]

/-- Tables that come first. -/
theorem Grown.trans (hgrown : Grown N h h' l p off 0 new)
    (hgrown' : Grown N h' h'' l p off leaf new') : Grown N h h'' l p off leaf (new ++ new') where
  leaves off' hoff' := by
    have hfirst := hgrown.leaves off' hoff'
    rw [if_neg fun hboth => hboth.2 rfl] at hfirst
    rw [hgrown'.leaves off' hoff', hfirst]
  nodes := by
    have hfirst := hgrown.nodes
    rw [if_pos rfl, List.append_nil] at hfirst
    refine hgrown'.nodes.trans ?_
    rw [List.append_assoc new, ← List.append_assoc (TableTree.nodes N h l p)]
    exact hfirst.append_right _
  tables := by
    refine hgrown'.tables.trans ?_
    rw [← List.append_assoc]
    exact hgrown.tables.append_right new'

/-- A leaf in a table of leaves. -/
theorem Grown.slot (hp : p ≠ 0) (hoff : off < N) (hnone : h p off = 0) (hleaf : leaf ≠ 0) :
    Grown N h (setSlot h p off leaf) 1 p off leaf [] where
  leaves off' _ := by
    rw [leafAt_one hp, leafAt_one hp, setSlot, Function.update_self, Function.update_apply]
    simp only [hleaf, ne_eq, not_false_eq_true, and_true]
  nodes := by
    rw [nodes_succ hp, nodes_succ hp, List.cons_append, List.nil_append,
      if_neg hleaf]
    refine List.Perm.cons p (flatMap_slot hoff ?_ fun i _ hne => ?_)
    · rw [setSlot, Function.update_self, Function.update_self, hnone, nodes_null, List.nil_append,
        TableTree.nodes, if_neg hleaf]
    · rw [setSlot, Function.update_self, Function.update_of_ne hne]
      rfl
  tables := by
    rw [List.append_nil, tables_succ hp, tables_succ hp]
    simp only [TableTree.tables]
    exact List.Perm.refl _

/-- A table of no pointers in a slot that had none. -/
theorem Grown.table (hp : p ≠ 0) (hl : l ≠ 0) (hoff : off < N ^ (l + 1)) (hq : q ≠ 0)
    (hnone : h p (off / N ^ l) = 0) (hslot : h' p (off / N ^ l) = q) (hempty : ∀ i < N, h' q i = 0)
    (hothers : ∀ i < N, i ≠ off / N ^ l → h' p i = h p i ∧ Agree N h h' l (h p i)) :
    Grown N h h' (l + 1) p off 0 [q] := by
  obtain ⟨m, rfl⟩ : ∃ m, l = m + 1 := ⟨l - 1, by omega⟩
  have hnulls : ∀ {α : Type} (f : ℕ → List α), f 0 = [] →
      (List.range N).flatMap (fun i => f (h' q i)) = [] := by
    intro α f hf
    refine List.flatMap_eq_nil_iff.mpr fun i hi => ?_
    rw [hempty i (List.mem_range.mp hi), hf]
  refine ⟨fun off' hoff' => ?_, ?_, ?_⟩
  · rw [if_neg fun hboth => hboth.2 rfl, leafAt_succ hp, leafAt_succ hp]
    by_cases hsame : off' / N ^ (m + 1) = off / N ^ (m + 1)
    · rw [hsame, hslot, hnone, leafAt_null, leafAt_succ hq, hempty _ (div_lt (mod_lt hoff')),
        leafAt_null]
    · obtain ⟨hroot, hagree⟩ := hothers _ (div_lt hoff') hsame
      rw [hroot, hagree.leafAt_eq (mod_lt hoff')]
  · rw [nodes_succ hp, nodes_succ hp, List.cons_append, if_pos rfl, List.append_nil]
    refine List.Perm.cons p (flatMap_slot (div_lt hoff) ?_ fun i hi hne => ?_)
    · rw [hslot, hnone, nodes_null, List.nil_append, nodes_succ hq, hnulls _ nodes_null]
    · obtain ⟨hroot, hagree⟩ := hothers i hi hne
      rw [hroot, hagree.nodes_eq]
  · rw [tables_succ hp, tables_succ hp, List.cons_append]
    refine List.Perm.cons p (flatMap_slot (div_lt hoff) ?_ fun i hi hne => ?_)
    · rw [hslot, hnone, tables_null, List.nil_append, tables_succ hq, hnulls _ tables_null]
    · obtain ⟨hroot, hagree⟩ := hothers i hi hne
      rw [hroot, hagree.tables_eq]

/-- A subtree that grew. -/
theorem Grown.child (hp : p ≠ 0) (hoff : off < N ^ (l + 1))
    (hroot : ∀ i < N, h' p i = h p i)
    (hothers : ∀ i < N, i ≠ off / N ^ l → Agree N h h' l (h p i))
    (hgrown : Grown N h h' l (h p (off / N ^ l)) (off % N ^ l) leaf new) :
    Grown N h h' (l + 1) p off leaf new := by
  refine ⟨fun off' hoff' => ?_, ?_, ?_⟩
  · rw [leafAt_succ hp, leafAt_succ hp, hroot _ (div_lt hoff')]
    by_cases hsame : off' / N ^ l = off / N ^ l
    · have hmod : off' % N ^ l = off % N ^ l ↔ off' = off := by
        refine ⟨fun hmod => ?_, fun heq => by rw [heq]⟩
        rw [← Nat.div_add_mod off' (N ^ l), ← Nat.div_add_mod off (N ^ l), hsame, hmod]
      rw [hsame, hgrown.leaves _ (mod_lt hoff')]
      simp only [hmod]
    · rw [(hothers _ (div_lt hoff') hsame).leafAt_eq (mod_lt hoff'),
        if_neg fun hboth => hsame (by rw [hboth.1])]
  · rw [nodes_succ hp, nodes_succ hp, List.cons_append]
    refine List.Perm.cons p (flatMap_slot (div_lt hoff) ?_ fun i hi hne => ?_)
    · rw [hroot _ (div_lt hoff)]
      exact hgrown.nodes
    · rw [hroot i hi, (hothers i hi hne).nodes_eq]
  · rw [tables_succ hp, tables_succ hp, List.cons_append]
    refine List.Perm.cons p (flatMap_slot (div_lt hoff) ?_ fun i hi hne => ?_)
    · rw [hroot _ (div_lt hoff)]
      exact hgrown.tables
    · rw [hroot i hi, (hothers i hi hne).tables_eq]

end TableTree

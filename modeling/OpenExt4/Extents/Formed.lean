import OpenExt4.Extents.Tree

set_option autoImplicit false

/-! # Well-formed trees

What a tree maps is the list of its extents, leaf after leaf. A tree is well formed if its extents
are in order and apart, if no node is empty, and if every index has the key of its child. -/

namespace Extents

/-! ## What a tree holds -/

/-- The extents of a tree, in the order of the leaves. -/
def Tree.extents : (d : ℕ) → Tree d → List Extent
  | 0, (n : Node Extent) => n.entries
  | d + 1, (n : Node (Index (Tree d))) => n.entries.flatMap fun k => Tree.extents d k.child

/-- The physical blocks of an extent. -/
def Extent.blocks (e : Extent) : List ℕ := List.range' e.start e.len

/-- The physical blocks that a tree refers to: those of its extents, and those of its nodes but for
    the one at the top. -/
def Tree.blocks : (d : ℕ) → Tree d → List ℕ
  | 0, (n : Node Extent) => n.entries.flatMap Extent.blocks
  | d + 1, (n : Node (Index (Tree d))) =>
    n.entries.flatMap fun k => k.leaf :: Tree.blocks d k.child

/-- The physical block of a logical one, and whether it is unwritten. -/
def mapOf (es : List Extent) (b : ℕ) : Option (ℕ × Bool) :=
  (es.find? fun e => e.firstBlock ≤ b ∧ b < e.firstBlock + e.len).map fun e =>
    (e.start + (b - e.firstBlock), e.isUnwritten)

/-! ## Order -/

/-- The extent is not empty, and ends inside the block space. -/
structure Extent.Sound (e : Extent) : Prop where
  pos : 0 < e.len
  fits : e.firstBlock + e.len ≤ 2 ^ 32

/-- Extents in order, one behind the other. -/
structure Ordered (es : List Extent) : Prop where
  sound : ∀ e ∈ es, e.Sound
  apart : es.Pairwise fun a b => a.firstBlock + a.len ≤ b.firstBlock

instance (e : Extent) : Decidable e.Sound :=
  decidable_of_iff (0 < e.len ∧ e.firstBlock + e.len ≤ 2 ^ 32) ⟨fun h => ⟨h.1, h.2⟩, fun h => ⟨h.1, h.2⟩⟩

instance (es : List Extent) : Decidable (Ordered es) :=
  decidable_of_iff ((∀ e ∈ es, e.Sound) ∧ es.Pairwise fun a b => a.firstBlock + a.len ≤ b.firstBlock)
    ⟨fun h => ⟨h.1, h.2⟩, fun h => ⟨h.1, h.2⟩⟩

theorem Ordered.append {as bs : List Extent} : Ordered (as ++ bs) ↔
    Ordered as ∧ Ordered bs ∧ ∀ a ∈ as, ∀ b ∈ bs, a.firstBlock + a.len ≤ b.firstBlock := by
  constructor
  · intro h
    obtain ⟨has, hbs, hcross⟩ := List.pairwise_append.mp h.apart
    exact ⟨⟨fun e he => h.sound e (List.mem_append_left _ he), has⟩,
      ⟨fun e he => h.sound e (List.mem_append_right _ he), hbs⟩, hcross⟩
  · rintro ⟨has, hbs, hcross⟩
    refine ⟨fun e he => ?_, List.pairwise_append.mpr ⟨has.apart, hbs.apart, hcross⟩⟩
    rcases List.mem_append.mp he with he | he
    · exact has.sound e he
    · exact hbs.sound e he

theorem Ordered.cons {a : Extent} {bs : List Extent} : Ordered (a :: bs) ↔
    a.Sound ∧ Ordered bs ∧ ∀ b ∈ bs, a.firstBlock + a.len ≤ b.firstBlock := by
  rw [← List.singleton_append, Ordered.append]
  constructor
  · rintro ⟨ha, hbs, hcross⟩
    exact ⟨ha.sound a (List.mem_singleton_self a), hbs, hcross a (List.mem_singleton_self a)⟩
  · rintro ⟨ha, hbs, hcross⟩
    refine ⟨⟨?_, List.pairwise_singleton _ a⟩, hbs, ?_⟩
    · simpa using ha
    · simpa using hcross

theorem Ordered.nil : Ordered [] := ⟨by simp, List.Pairwise.nil⟩

/-- The first blocks of ordered extents grow. -/
theorem Ordered.firstBlock_lt {as bs : List Extent} (h : Ordered (as ++ bs)) {a b : Extent}
    (ha : a ∈ as) (hb : b ∈ bs) : a.firstBlock < b.firstBlock := by
  have hpos := (h.sound a (List.mem_append_left _ ha)).pos
  have hle := (Ordered.append.mp h).2.2 a ha b hb
  omega

/-! ## Maps -/

/-- In ordered extents a block is mapped by the one that covers it. -/
theorem mapOf_eq_some {es : List Extent} (h : Ordered es) {b : ℕ} {v : ℕ × Bool} :
    mapOf es b = some v ↔ ∃ e ∈ es, e.firstBlock ≤ b ∧ b < e.firstBlock + e.len ∧
      v = (e.start + (b - e.firstBlock), e.isUnwritten) := by
  induction es with
  | nil => simp [mapOf]
  | cons e rest ih =>
      obtain ⟨-, hrest, hbehind⟩ := Ordered.cons.mp h
      by_cases hin : e.firstBlock ≤ b ∧ b < e.firstBlock + e.len
      · have hfind : mapOf (e :: rest) b = some (e.start + (b - e.firstBlock), e.isUnwritten) := by
          simp [mapOf, hin]
        rw [hfind, Option.some.injEq]
        constructor
        · rintro rfl
          exact ⟨e, List.mem_cons_self, hin.1, hin.2, rfl⟩
        · rintro ⟨e', he', hlo, hhi, rfl⟩
          rcases List.mem_cons.mp he' with rfl | he'
          · rfl
          · have := hbehind e' he'
            omega
      · have hfind : mapOf (e :: rest) b = mapOf rest b := by
          simp only [mapOf, List.find?_cons, hin, decide_false]
        rw [hfind, ih hrest]
        simp only [List.mem_cons, exists_eq_or_imp]
        constructor
        · exact .inr
        · rintro (⟨hlo, hhi, -⟩ | h)
          · exact absurd ⟨hlo, hhi⟩ hin
          · exact h

theorem mapOf_eq_none {es : List Extent} {b : ℕ} : mapOf es b = none ↔
    ∀ e ∈ es, ¬ (e.firstBlock ≤ b ∧ b < e.firstBlock + e.len) := by
  simp [mapOf]

/-! ## Nodes -/

/-- A node with entries that passes the check. -/
structure Node.Ok {α : Type} (space depth : ℕ) (n : Node α) : Prop where
  check : extCheck space depth n = true
  nonempty : n.entries ≠ []

/-- No node of the tree is empty, and every index has the key of its child. `top` is the room of the
    uppermost node, `space` that of a block. -/
def Tree.Formed (space : ℕ) : (top d : ℕ) → Tree d → Prop
  | top, 0, (n : Node Extent) => Node.Ok top 0 n
  | top, d + 1, (n : Node (Index (Tree d))) =>
    Node.Ok top (d + 1) n ∧
      ∀ k ∈ n.entries, k.firstBlock = Tree.firstKey d k.child ∧ Tree.Formed space space d k.child

/-- **A well-formed tree**, of at most the depth that the driver walks; the root may be empty if it
    is a leaf. -/
structure ExtTree.WellFormed (blockSize : ℕ) (t : ExtTree) : Prop where
  depth_le : t.depth ≤ ext4MaxExtentDepth
  check : t.root.check spaceRoot t.depth = true
  formed : Tree.isEmpty t.depth t.root = false →
    Tree.Formed (spaceBlock blockSize) spaceRoot t.depth t.root
  empty : Tree.isEmpty t.depth t.root = true → t.depth = 0
  ordered : Ordered (Tree.extents t.depth t.root)

end Extents

import OpenExt4.Extents.Pool

set_option autoImplicit false

/-! # Insertion

`ext4_ext_insert_extent` puts an extent into the leaf at the end of a path. A full leaf is split
first, and with it every full node above it, up to one that has room for an index more; where there
is none, the tree grows a level under its root. -/

namespace Extents

/-! ## Merging -/

/-- The two extents may become one: they are in the same state, and not too long together. -/
def canCombine (ex1 ex2 : Extent) : Bool :=
  ex1.isUnwritten = ex2.isUnwritten ∧
    ex1.len + ex2.len ≤ if ex1.isUnwritten then extUnwrittenMaxLen else extInitMaxLen

/-- `ext4_ext_can_prepend`: `ex2` ends where `ex1` begins. -/
def canPrepend (ex1 ex2 : Extent) : Bool :=
  canCombine ex1 ex2 ∧ ex2.start + ex2.len = ex1.start ∧
    (ex2.firstBlock + ex2.len) % 2 ^ 32 = ex1.firstBlock

/-- `ext4_ext_can_append`: `ex2` begins where `ex1` ends. -/
def canAppend (ex1 ex2 : Extent) : Bool :=
  canCombine ex1 ex2 ∧ ex1.start + ex1.len = ex2.start ∧
    (ex1.firstBlock + ex1.len) % 2 ^ 32 = ex2.firstBlock

/-- The extent with a new length, in the state it had. -/
def Extent.withLen (ex : Extent) (len : ℕ) : Extent :=
  let ex' := Extent.of ex.firstBlock len ex.start
  if ex.isUnwritten then ex'.markUnwritten else ex'

/-- What a prepending makes of the extent: the start stays where it was. -/
def Extent.prepended (ex newext : Extent) : Extent :=
  let ex' := Extent.of newext.firstBlock (ex.len + newext.len) ex.start
  if ex.isUnwritten then ex'.markUnwritten else ex'

/-! ## The leaf -/

def LeafPath.count (p : LeafPath) : ℕ := p.before.length + p.cur.toList.length + p.behind.length

/-- What becomes of an insertion: the path it leaves, with the block that
    `ext4_ext_correct_indexes` carries to the index above, or no room, or a refusal. -/
inductive Inserted (α : Type) where
  | done (p : α) (border : Option ℕ)
  | full
  | refused

/-- The block that goes up as key: the node's first one, where the path goes through its first
    entry. -/
def borderOf {α : Type} (before : List α) (first : ℕ) : Option ℕ :=
  match before with
  | [] => some first
  | _ => none

/-- `ext4_ext_insert_leaf` -/
def insertLeaf (p : LeafPath) (newext : Extent) (noCombine : Bool) : Inserted LeafPath :=
  match p.cur with
  | none =>
    if p.count = p.header.maxEntries then .full
    else .done { p with cur := some newext, isSealed := true } (borderOf p.before newext.firstBlock)
  | some ex =>
    if newext.firstBlock = ex.firstBlock then .refused
    else if noCombine = false ∧ canAppend ex newext then
      .done { p with cur := some (ex.withLen (ex.len + newext.len)), isSealed := true } none
    else if noCombine = false ∧ canPrepend ex newext then
      -- neither the start nor the indexes above are moved
      .done { p with cur := some (ex.prepended newext), isSealed := true } none
    else if p.count = p.header.maxEntries then .full
    else if ex.firstBlock < newext.firstBlock then
      .done { p with before := p.before ++ [ex], cur := some newext, isSealed := true }
        (borderOf p.before ex.firstBlock)
    else
      .done { p with cur := some newext, behind := ex :: p.behind, isSealed := true }
        (borderOf p.before newext.firstBlock)

/-- The insertion at the end of a path, and `ext4_ext_correct_indexes` on the way back up: the index
    above a leaf takes the key, and each one further up while the one below is the first of its
    node. -/
def insertLeafAt (newext : Extent) (noCombine : Bool) : (d : ℕ) → Path d → Inserted (Path d)
  | 0, (p : LeafPath) => insertLeaf p newext noCombine
  | d + 1, (p : IndexPath (Tree d) (Path d)) =>
    match insertLeafAt newext noCombine d p.below with
    | .done q border =>
      .done
        { p with
          below := q
          firstBlock := border.getD p.firstBlock
          isSealed := border.isSome || p.isSealed }
        (border.bind (borderOf p.before))
    | .full => .full
    | .refused => .refused

/-! ## Splitting -/

/-- `EXT_HAS_FREE_INDEX` -/
def IndexPath.hasFree {α β : Type} (p : IndexPath α β) : Bool :=
  p.before.length + 1 + p.behind.length < p.header.maxEntries

/-- Some index node on the path has room. -/
def Path.hasFree : (d : ℕ) → Path d → Bool
  | 0, _ => false
  | d + 1, (p : IndexPath (Tree d) (Path d)) => Path.hasFree d p.below || p.hasFree

/-- The leaf at the end of a path. -/
def Path.leafOf : (d : ℕ) → Path d → LeafPath
  | 0, p => p
  | d + 1, (p : IndexPath (Tree d) (Path d)) => Path.leafOf d p.below

/-- The header of a new node. -/
def newHeader (pf : Platform) (depth : ℕ) : Header :=
  ⟨EXT4_EXTENT_MAGIC, spaceBlock pf.blockSize, depth⟩

/-- A node that was split: the path through what is left of it, the path through the new node, the
    block of that, and all blocks taken so far, the leaf's first. -/
structure Halves (α : Type) where
  left : α
  right : α
  block : ℕ
  taken : List ℕ

/-- What becomes of a split: the index of the new node is in, or is still to be put into the node
    above, or a call failed; then the entries that had been moved are gone. -/
inductive Split (α : Type) where
  | done (p : α)
  | carry (h : Halves α)
  | failed (p : α) (e : Errno)

/-- The turn of `ext4_ext_split_node` for the leaf: what lies behind the current extent moves. -/
def splitLeaf (pf : Platform) (goal : ℕ) (p : LeafPath) (w : Pool) : Split LeafPath × Pool :=
  match newNodeBlock pf goal w with
  | (.error e, w) => (.failed p e, w)
  | (.ok b, w) =>
    (.carry {
      left := { p with behind := [], isSealed := p.behind.length ≠ 0 || p.isSealed }
      right := ⟨newHeader pf 0, [], p.behind.head?, p.behind.tail, true⟩
      block := b
      taken := [b] }, w)

/-- The turn of `ext4_ext_split_node` for an index node: what lies behind the current index moves,
    with the index of the node split below in front of it. -/
def splitIndex {d : ℕ} (pf : Platform) (goal key : ℕ) (p : IndexPath (Tree d) (Path d))
    (h : Halves (Path d)) (w : Pool) : Split (IndexPath (Tree d) (Path d)) × Pool :=
  match newNodeBlock pf goal w with
  | (.error e, w) => (.failed { p with below := h.left } e, w.giveAll h.taken)
  | (.ok b, w) =>
    (.carry {
      left := { p with
        below := h.left
        behind := []
        isSealed := p.behind.length ≠ 0 || p.isSealed }
      right := ⟨newHeader pf (d + 1), [], key, h.block, h.right, p.behind, true⟩
      block := b
      taken := h.taken ++ [b] }, w)

/-- `ext4_ext_insert_index`: the index of the new node goes behind the current one, or before it if
    its key is smaller. The path goes on through the new node if `right`. -/
def insertIndex {d : ℕ} (p : IndexPath (Tree d) (Path d)) (key : ℕ) (h : Halves (Path d))
    (right : Bool) : Option (IndexPath (Tree d) (Path d)) :=
  if key = p.firstBlock then none
  else
    let old : Index (Tree d) := ⟨p.firstBlock, p.leaf, h.left.tree d⟩
    let new : Index (Tree d) := ⟨key, h.block, h.right.tree d⟩
    if p.firstBlock < key then
      if right then
        some { p with
          before := p.before ++ [old]
          firstBlock := key
          leaf := h.block
          below := h.right
          isSealed := true }
      else some { p with below := h.left, behind := new :: p.behind, isSealed := true }
    else if right then
      some { p with
        firstBlock := key
        leaf := h.block
        below := h.right
        behind := old :: p.behind
        isSealed := true }
    -- (`path->index` is then the new entry; nodes in order do not lead here)
    else some { p with before := p.before ++ [new], below := h.left, isSealed := true }

/-- `ext4_ext_split_node`, from the leaf up to the lowest index node with room. -/
def splitNode (pf : Platform) (goal key : ℕ) (right : Bool) :
    (d : ℕ) → Path d → Pool → Split (Path d) × Pool
  | 0, (p : LeafPath), w => splitLeaf pf goal p w
  | d + 1, (p : IndexPath (Tree d) (Path d)), w =>
    match splitNode pf goal key right d p.below w with
    | (.failed q e, w) => (.failed ({ p with below := q } : IndexPath (Tree d) (Path d)) e, w)
    | (.done q, w) => (.done ({ p with below := q } : IndexPath (Tree d) (Path d)), w)
    | (.carry h, w) =>
      if p.hasFree then
        match insertIndex p key h right with
        | some q => (.done q, w)
        | none =>
          (.failed ({ p with below := h.left } : IndexPath (Tree d) (Path d)) Errno.EIO,
            w.giveAll h.taken)
      else splitIndex pf goal key p h w

/-- `insert_index` of the split: the first block behind the current extent, or that of the new one
    where nothing lies behind. -/
def splitKey (p : LeafPath) (newext : Extent) : ℕ :=
  match p.behind with
  | [] => newext.firstBlock
  | next :: _ => next.firstBlock

/-! ## Growing -/

/-- The block that the first index of a root points to, or the goal of the inode. -/
def growGoal (pf : Platform) : (d : ℕ) → Tree d → ℕ
  | 0, _ => pf.inodeGoal
  | _ + 1, (n : Node (Index _)) => (n.entries.head?.map (·.leaf)).getD 0

/-- The root as the node of a block. -/
def Tree.moved (space : ℕ) : (d : ℕ) → Tree d → Tree d
  | 0, (n : Node Extent) =>
    (⟨⟨EXT4_EXTENT_MAGIC, space, n.header.depth⟩, n.entries, true⟩ : Node Extent)
  | d + 1, (n : Node (Index (Tree d))) =>
    (⟨⟨EXT4_EXTENT_MAGIC, space, n.header.depth⟩, n.entries, true⟩ : Node (Index (Tree d)))

/-- `ext4_ext_grow_indepth`: what the root holds moves to a block, and the root becomes the index of
    that. -/
def growIndepth (pf : Platform) (t : ExtTree) (w : Pool) : Except Errno ExtTree × Pool :=
  match newNodeBlock pf (growGoal pf t.depth t.root) w with
  | (.error e, w) => (.error e, w)
  | (.ok b, w) =>
    let old := Tree.header t.depth t.root
    let header : Header :=
      { old with
        maxEntries := if old.depth = 0 then spaceRoot else old.maxEntries
        depth := old.depth + 1 }
    let root : Node (Index (Tree t.depth)) :=
      ⟨header, [⟨Tree.firstKey t.depth t.root, b, Tree.moved (spaceBlock pf.blockSize) t.depth t.root⟩],
        true⟩
    (.ok ⟨t.depth + 1, root⟩, w)

/-! ## The whole -/

/-- `ext4_ext_find_goal` for a block: next to the extent that the path comes to. -/
def findGoal (pf : Platform) (leafBlock : ℕ) (p : LeafPath) (block : ℕ) : ℕ :=
  match p.cur with
  | some ex =>
    if ex.firstBlock < block then ex.start + (block - ex.firstBlock)
    else (ex.start + 2 ^ 64 - (ex.firstBlock - block)) % 2 ^ 64
  | none => if leafBlock ≠ 0 then leafBlock else pf.inodeGoal

/-- The block that the leaf of the path is in, `0` for a root. -/
def Path.leafBlock : (d : ℕ) → Path d → ℕ
  | 0, _ => 0
  | 1, (p : IndexPath (Tree 0) (Path 0)) => p.leaf
  | d + 2, (p : IndexPath (Tree (d + 1)) (Path (d + 1))) => Path.leafBlock (d + 1) p.below

def Path.goal (pf : Platform) (d : ℕ) (p : Path d) (block : ℕ) : ℕ :=
  findGoal pf (Path.leafBlock d p) (Path.leafOf d p) block

/-- What an insertion leaves: the tree with the extent in it; or an error, and the path, through the
    tree as it then is; or an error with the path given up. -/
inductive InsertResult where
  | ok (t : ExtTree)
  | failed (d : ℕ) (p : Path d) (e : Errno)
  | lost (t : ExtTree) (e : Errno)

/-- The tree that an insertion leaves. -/
def InsertResult.tree : InsertResult → ExtTree
  | .ok t => t
  | .failed d p _ => ⟨d, p.tree d⟩
  | .lost t _ => t

def InsertResult.error : InsertResult → Option Errno
  | .ok _ => none
  | .failed _ _ e => some e
  | .lost _ e => some e

/-- The last attempt of `ext4_ext_insert_extent`, when the leaf has room. -/
def insertNow (d : ℕ) (p : Path d) (newext : Extent) (noCombine : Bool) : InsertResult :=
  match insertLeafAt newext noCombine d p with
  | .done q _ => .ok ⟨d, q.tree d⟩
  | _ => .failed d p Errno.EIO

/-- The part of `ext4_ext_insert_extent` that makes room on a path with a free index, and takes the
    insertion up again. -/
def splitAndInsert (pf : Platform) (d : ℕ) (p : Path d) (newext : Extent) (noCombine : Bool)
    (w : Pool) : InsertResult × Pool :=
  let leaf := Path.leafOf d p
  if leaf.count < leaf.header.maxEntries then (insertNow d p newext noCombine, w)
  else if pf.nopath w.calls then (.failed d p .ENOMEM, w.tick)
  else
    let key := splitKey leaf newext
    let goal := Path.goal pf d p newext.firstBlock
    match splitNode pf goal key (key ≤ newext.firstBlock) d p w.tick with
    | (.failed q e, w) => (.failed d q e, w)
    -- there is a node with room
    | (.carry h, w) => (.failed d h.left Errno.EIO, w)
    | (.done q, w) => (insertNow d q newext noCombine, w)

/-- `ext4_ext_insert_extent` -/
def insertExtent (pf : Platform) (d : ℕ) (p : Path d) (newext : Extent) (noCombine : Bool)
    (w : Pool) : InsertResult × Pool :=
  match insertLeafAt newext noCombine d p with
  | .done q _ => (.ok ⟨d, q.tree d⟩, w)
  | .refused => (.failed d p Errno.EIO, w)
  | .full =>
    if Path.hasFree d p then splitAndInsert pf d p newext noCombine w
    else
      match growIndepth pf ⟨d, p.tree d⟩ w with
      | (.error e, w) => (.failed d p e, w)
      | (.ok t, w) =>
        match w.find pf t newext.firstBlock with
        | (.error e, w) => (.lost t e, w)
        | (.ok q, w) => splitAndInsert pf t.depth q newext noCombine w

end Extents

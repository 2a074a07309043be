import OpenExt4.Extents.Extent

set_option autoImplicit false

/-! # Extent trees

A tree of nodes, the root in the inode and every other node in a block of its own. `Tree d` is what
a walk sees that expects a node of depth `d`: the entries of the node as the header counts them,
and below each index entry what the walk sees in the block it points to. A path holds the node of
each level, split at the entry it goes through. -/

namespace Extents

/-- `struct ext4_extent_header`, but for the count of the entries. -/
structure Header where
  magic : ℕ
  maxEntries : ℕ
  depth : ℕ
  deriving DecidableEq

/-- `struct ext4_extent_index`, with what the block it points to holds. -/
structure Index (α : Type) where
  firstBlock : ℕ
  leaf : ℕ
  child : α

/-- A node. It is sealed while its tail is the checksum of the rest; the root has no tail. -/
structure Node (α : Type) where
  header : Header
  entries : List α
  isSealed : Bool

/-- A tree of depth `d`. -/
@[reducible] def Tree : ℕ → Type
  | 0 => Node Extent
  | d + 1 => Node (Index (Tree d))

/-- The header at the top of a tree. -/
def Tree.header : (d : ℕ) → Tree d → Header
  | 0, (n : Node Extent) => n.header
  | _ + 1, (n : Node (Index _)) => n.header

/-- The node at the top has no entries. -/
def Tree.isEmpty : (d : ℕ) → Tree d → Bool
  | 0, (n : Node Extent) => n.entries.isEmpty
  | _ + 1, (n : Node (Index _)) => n.entries.isEmpty

/-- The key of the first entry of a node. -/
def Tree.firstKey : (d : ℕ) → Tree d → ℕ
  | 0, (n : Node Extent) => (n.entries.head?.map (·.firstBlock)).getD 0
  | _ + 1, (n : Node (Index _)) => (n.entries.head?.map (·.firstBlock)).getD 0

/-- The extent tree of an inode; the depth is that in the header of the root. -/
structure ExtTree where
  depth : ℕ
  root : Tree depth

/-! ## The check -/

def EXT4_EXTENT_MAGIC : ℕ := 0xF30A

/-- `EXT4_MAX_EXTENT_DEPTH` -/
def ext4MaxExtentDepth : ℕ := 5

/-- `ext4_ext_space_root`, and `ext4_ext_space_root_idx`: an index takes as much room. -/
def spaceRoot : ℕ := (60 - 12) / 12

/-- `ext4_ext_space_block`, and `ext4_ext_space_block_idx`. -/
def spaceBlock (blockSize : ℕ) : ℕ := (blockSize - 12) / 12 % 2 ^ 16

/-- `ext4_ext_max_entries` -/
def extMaxEntries (blockSize rootDepth depth : ℕ) : ℕ :=
  if depth = rootDepth then spaceRoot else spaceBlock blockSize

/-- `ext4_ext_check`, but for the checksum, which it only warns about. -/
def extCheck {α : Type} (space depth : ℕ) (n : Node α) : Bool :=
  n.header.magic = EXT4_EXTENT_MAGIC ∧ n.header.depth = depth ∧ n.header.maxEntries ≠ 0 ∧
    n.header.maxEntries ≤ space ∧ n.entries.length ≤ n.header.maxEntries

/-- The check of the node at the top of a tree. -/
def Tree.check (space : ℕ) : (d : ℕ) → Tree d → Bool
  | 0, n => extCheck (α := Extent) space 0 n
  | d + 1, n => extCheck (α := Index (Tree d)) space (d + 1) n

/-- A leaf with the extents given, as the root of a tree. -/
def leafTree (extents : List Extent) : ExtTree :=
  ⟨0, (⟨⟨EXT4_EXTENT_MAGIC, 4, 0⟩, extents, true⟩ : Node Extent)⟩

/-! ## Paths -/

/-- The leaf at the end of a path; `cur` is `path->extent`. -/
structure LeafPath where
  header : Header
  before : List Extent
  cur : Option Extent
  behind : List Extent
  isSealed : Bool

/-- An index node on a path; `firstBlock` and `leaf` are those of the entry at `path->index`. -/
structure IndexPath (α β : Type) where
  header : Header
  before : List (Index α)
  firstBlock : ℕ
  leaf : ℕ
  below : β
  behind : List (Index α)
  isSealed : Bool

/-- A path through a tree of depth `d`. -/
@[reducible] def Path : ℕ → Type
  | 0 => LeafPath
  | d + 1 => IndexPath (Tree d) (Path d)

/-- The node that the path leaf stands for. -/
def LeafPath.node (p : LeafPath) : Node Extent :=
  ⟨p.header, p.before ++ p.cur.toList ++ p.behind, p.isSealed⟩

/-- The tree that a path leads through. -/
def Path.tree : (d : ℕ) → Path d → Tree d
  | 0, p => LeafPath.node p
  | d + 1, (p : IndexPath (Tree d) (Path d)) =>
    (⟨p.header, p.before ++ ⟨p.firstBlock, p.leaf, Path.tree d p.below⟩ :: p.behind, p.isSealed⟩ :
      Node (Index (Tree d)))

/-! ## Lookup -/

/-- The loop of the binary searches over `l` up to `hi`, the end not included. -/
def searchLoop (keys : List ℕ) (block : ℕ) : ℕ → ℕ → ℕ → ℕ
  | 0, l, _ => l - 1
  | fuel + 1, l, hi =>
    if l < hi then
      let m := l + (hi - 1 - l) / 2
      if block < keys.getD m 0 then searchLoop keys block fuel l m
      else searchLoop keys block fuel (m + 1) hi
    else l - 1

/-- `ext4_ext_binsearch` and `ext4_ext_binsearch_idx`: where the entry is that the path goes on
    with. The first key is not looked at. -/
def binsearch (keys : List ℕ) (block : ℕ) : ℕ := searchLoop keys block keys.length 1 keys.length

/-- How the calls of a lookup fare. -/
structure Look where
  memory : Bool
  unreadable : ℕ → Bool

/-- `ext4_ext_binsearch`; an empty leaf has no extent to point to. -/
def leafPath (n : Node Extent) (block : ℕ) : LeafPath :=
  let i := binsearch (n.entries.map (·.firstBlock)) block
  ⟨n.header, n.entries.take i, n.entries[i]?, n.entries.drop (i + 1), n.isSealed⟩

/-- The walk of `ext4_find_extent` below a node that has passed the check. An index node without
    entries, of which a well-formed tree has none, leads nowhere. -/
def findFrom (look : Look) (space block : ℕ) : (d : ℕ) → Tree d → Except Errno (Path d)
  | 0, n => .ok (leafPath n block)
  | d + 1, (n : Node (Index (Tree d))) =>
    let i := binsearch (n.entries.map (·.firstBlock)) block
    match n.entries[i]? with
    | none => .error Errno.EIO
    | some ix =>
      if look.unreadable ix.leaf then .error Errno.EIO
      else if ix.child.check space d = false then .error Errno.EIO
      else
        match findFrom look space block d ix.child with
        | .error e => .error e
        | .ok p =>
          .ok (⟨n.header, n.entries.take i, ix.firstBlock, ix.leaf, p, n.entries.drop (i + 1),
            n.isSealed⟩ : IndexPath (Tree d) (Path d))

/-- `ext4_find_extent` -/
def findExtent (look : Look) (blockSize : ℕ) (t : ExtTree) (block : ℕ) :
    Except Errno (Path t.depth) :=
  if ext4MaxExtentDepth < t.depth then .error Errno.EIO
  else if t.root.check spaceRoot t.depth = false then .error Errno.EIO
  else if look.memory = false then .error .ENOMEM
  else findFrom look (spaceBlock blockSize) block t.depth t.root

/-- `path[depth].extent` -/
def Path.extent : (d : ℕ) → Path d → Option Extent
  | 0, (p : LeafPath) => p.cur
  | d + 1, (p : IndexPath (Tree d) (Path d)) => Path.extent d p.below

/-- The walk of `ext4_ext_next_allocated_block` up the path. -/
def Path.nextAllocated : (d : ℕ) → Path d → Option ℕ
  | 0, (p : LeafPath) => if p.cur.isSome then p.behind.head?.map (·.firstBlock) else none
  | d + 1, (p : IndexPath (Tree d) (Path d)) =>
    match Path.nextAllocated d p.below with
    | some b => some b
    | none => p.behind.head?.map (·.firstBlock)

/-- What the lookups make of a path. -/
def Path.spot (d : ℕ) (p : Path d) : Spot :=
  ⟨Path.extent d p, (Path.nextAllocated d p).getD extMaxBlocks⟩

/-- The spot of a block in a tree. -/
def findSpot (look : Look) (blockSize : ℕ) (t : ExtTree) (block : ℕ) : Except Errno Spot :=
  match findExtent look blockSize t block with
  | .error e => .error e
  | .ok p => .ok (Path.spot t.depth p)

end Extents

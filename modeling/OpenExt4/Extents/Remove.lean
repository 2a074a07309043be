import OpenExt4.Extents.Insert

set_option autoImplicit false

/-! # Removal

`ext4_extent_remove_space` walks the tree from the leaf of the first block on, and takes away what
each leaf has in the range. A node left empty goes with its index. The walk simulates a recursion,
and is one here: over the levels, and in each index node over the entries behind the path. -/

namespace Extents

/-! ## The leaf -/

/-- The extent with its length cut, in the state it had; `ex.first_block` and the start may move. -/
def Extent.reduced (ex : Extent) (firstBlock len start : ℕ) : Extent :=
  let ex' := Extent.of firstBlock len start
  if ex.isUnwritten then ex'.markUnwritten else ex'

/-- The loop of `ext4_ext_remove_leaf`: the entries gone through, as edited in place, how many of
    them `start_ex` is past, and which one is `ex2`. -/
structure LeafLoop where
  edited : List Extent
  startEx : ℕ
  ex2 : Option ℕ

def removeLoop (frm upTo : ℕ) : List Extent → LeafLoop → Pool → LeafLoop × List Extent × Pool
  | [], s, w => (s, [], w)
  | ex :: rest, s, w =>
    if upTo < ex.firstBlock then (s, ex :: rest, w)
    else if ex.firstBlock < frm then
      -- the removal starts inside the extent
      let kept := frm - ex.firstBlock
      removeLoop frm upTo rest
        { s with
          edited := s.edited ++ [ex.reduced ex.firstBlock kept ex.start]
          startEx := s.startEx + 1 }
        (w.give (ex.start + kept) (ex.len - kept))
    else if upTo < (ex.firstBlock + ex.len + (2 ^ 32 - 1)) % 2 ^ 32 then
      -- the removal ends inside the extent
      let gone := upTo + 1 - ex.firstBlock
      removeLoop frm upTo rest
        { s with
          edited := s.edited ++ [ex.reduced (upTo + 1) (ex.len - gone) (ex.start + gone)]
          ex2 := some s.edited.length }
        (w.give ex.start gone)
    else removeLoop frm upTo rest { s with edited := s.edited ++ [ex] } (w.give ex.start ex.len)

/-- A node that a removal has gone through: what is left of it, the block it carries up as key, and
    whether the walk was broken off. -/
structure Removed (α : Type) where
  node : α
  border : Option ℕ
  error : Option Errno

/-- `ext4_ext_remove_leaf` for the leaf `header`, from the entry behind `before` on. -/
def removeLeaf (frm upTo : ℕ) (header : Header) (before here : List Extent) (w : Pool) :
    Removed (Node Extent) × Pool :=
  let (s, rest, w) := removeLoop frm upTo here ⟨[], 0, none⟩ w
  let slots := s.edited ++ rest
  let entries := before ++ slots.take s.startEx ++ slots.drop (s.ex2.getD s.edited.length)
  let border := entries.head?.bind fun ex => borderOf before ex.firstBlock
  (⟨⟨header, entries, true⟩, border, none⟩, w)

/-- The leaf's share of the range: from its first block to its last. -/
def leafRange (frm upTo : ℕ) (entries : List Extent) : ℕ × ℕ :=
  let first := (entries.head?.map (·.firstBlock)).getD 0
  let last := (entries.getLast?.map fun ex => (ex.firstBlock + ex.len + (2 ^ 32 - 1)) % 2 ^ 32).getD 0
  (if first < frm then frm else first, if upTo < last then upTo else last)

/-! ## Index nodes -/

/-- The entries of an index node that the removal is past, the block that goes up as key, and
    whether the node has been changed. -/
structure Settled (α : Type) where
  before : List (Index α)
  border : Option ℕ
  touched : Bool

/-- Behind a child: `ext4_ext_remove_idx` if it is empty, else on to the next index. -/
def settle {d : ℕ} (s : Settled (Tree d)) (firstBlock leaf : ℕ) (r : Removed (Tree d))
    (rest : List (Index (Tree d))) (w : Pool) : Settled (Tree d) × Pool :=
  -- the key, as `ext4_ext_correct_indexes` or an index further down has left it
  let key := r.border.getD firstBlock
  if Tree.isEmpty d r.node then
    -- where the last index goes, its own key is what the node above is given
    let next := (rest.head?.map (·.firstBlock)).getD key
    (⟨s.before, (borderOf s.before next).or s.border, true⟩, w.give leaf 1)
  else
    (⟨s.before ++ [⟨key, leaf, r.node⟩], (r.border.bind (borderOf s.before)).or s.border,
      r.border.isSome || s.touched⟩, w)

/-- The loop over the indexes of a node, where `more_to_rm` holds; `step` is the removal in a
    child. -/
def removeKids {d : ℕ} (unreadable : ℕ → Bool) (space upTo : ℕ)
    (step : Tree d → Pool → Removed (Tree d) × Pool) :
    List (Index (Tree d)) → Settled (Tree d) → Pool →
      (List (Index (Tree d)) × Settled (Tree d) × Option Errno) × Pool
  | [], s, w => (([], s, none), w)
  | k :: rest, s, w =>
    if upTo < k.firstBlock then ((k :: rest, s, none), w)
    else if unreadable k.leaf ∨ k.child.check space d = false then ((k :: rest, s, some Errno.EIO), w)
    else
      let (r, w) := step k.child w
      match r.error with
      | some e =>
        ((⟨r.border.getD k.firstBlock, k.leaf, r.node⟩ :: rest,
          { s with border := (r.border.bind (borderOf s.before)).or s.border }, some e), w)
      | none =>
        let (s, w) := settle s k.firstBlock k.leaf r rest w
        removeKids unreadable space upTo step rest s w

/-- The node that the loop leaves. It is given back without its checksum being set, but for a walk
    that is broken off, which drops the whole path. -/
def settledNode {d : ℕ} (header : Header) (isSealed : Bool) (s : Settled (Tree d))
    (rest : List (Index (Tree d))) (error : Option Errno) : Removed (Tree (d + 1)) :=
  ⟨(⟨header, s.before ++ rest, if error.isSome then isSealed || s.touched
    else isSealed && !s.touched⟩ : Node (Index (Tree d))),
    s.border, error⟩

/-- The removal in a node that lies behind the first leaf. -/
def removeNode (unreadable : ℕ → Bool) (space frm upTo : ℕ) :
    (d : ℕ) → Tree d → Pool → Removed (Tree d) × Pool
  | 0, (n : Node Extent), w =>
    let range := leafRange frm upTo n.entries
    removeLeaf range.1 range.2 n.header [] n.entries w
  | d + 1, (n : Node (Index (Tree d))), w =>
    let (r, w) := removeKids unreadable space upTo (removeNode unreadable space frm upTo d) n.entries
      ⟨[], none, false⟩ w
    (settledNode n.header n.isSealed r.2.1 r.1 r.2.2, w)

/-- The removal along the path to the first block. -/
def removePath (unreadable : ℕ → Bool) (space frm upTo : ℕ) :
    (d : ℕ) → Path d → Pool → Removed (Tree d) × Pool
  | 0, (p : LeafPath), w =>
    let range := leafRange frm upTo p.node.entries
    removeLeaf range.1 range.2 p.header p.before (p.cur.toList ++ p.behind) w
  | d + 1, (p : IndexPath (Tree d) (Path d)), w =>
    let (r, w) := removePath unreadable space frm upTo d p.below w
    match r.error with
    | some e =>
      (settledNode p.header p.isSealed
        ⟨p.before, r.border.bind (borderOf p.before), r.border.isSome⟩
        (⟨r.border.getD p.firstBlock, p.leaf, r.node⟩ :: p.behind) (some e), w)
    | none =>
      let (s, w) := settle ⟨p.before, none, false⟩ p.firstBlock p.leaf r p.behind w
      let (r, w) := removeKids unreadable space upTo (removeNode unreadable space frm upTo d) p.behind s w
      (settledNode p.header p.isSealed r.2.1 r.1 r.2.2, w)

/-! ## The whole -/

/-- An empty root is a leaf again. -/
def cleared (t : ExtTree) : ExtTree :=
  if Tree.isEmpty t.depth t.root then
    ⟨0, (⟨⟨(Tree.header t.depth t.root).magic, spaceRoot, 0⟩, [], true⟩ : Node Extent)⟩
  else t

/-- The leaf's current extent with another length. -/
def Path.setCur (ex : Extent) : (d : ℕ) → Path d → Path d
  | 0, (p : LeafPath) => ({ p with cur := some ex, isSealed := true } : LeafPath)
  | d + 1, (p : IndexPath (Tree d) (Path d)) =>
    ({ p with below := Path.setCur ex d p.below } : IndexPath (Tree d) (Path d))

/-- `ext4_extent_remove_space`: the tree, and the error that is returned. -/
def removeSpace (pf : Platform) (t : ExtTree) (frm upTo : ℕ) (w : Pool) :
    (ExtTree × Option Errno) × Pool :=
  let look := pf.look w.calls
  match w.find pf t frm with
  | (.error e, w) => ((t, some e), w)
  | (.ok p, w) =>
    match Path.extent t.depth p with
    | none => ((t, none), w)
    | some ex =>
      if ex.covers frm = false then ((t, none), w)
      else if ex.firstBlock < frm ∧ upTo < (ex.firstBlock + ex.len + (2 ^ 32 - 1)) % 2 ^ 32 then
        -- the range lies inside the extent
        let newex := ex.reduced (upTo + 1) (ex.firstBlock + ex.len - 1 - upTo)
          (ex.start + (upTo + 1 - ex.firstBlock))
        let cut := ex.reduced ex.firstBlock (frm - ex.firstBlock) ex.start
        let (r, w) := insertExtent pf t.depth (Path.setCur cut t.depth p) newex false w
        ((r.tree, r.error), w)
      else
        let (r, w) := removePath look.unreadable (spaceBlock pf.blockSize) frm upTo t.depth p w
        match r.error with
        | some e => ((⟨t.depth, r.node⟩, some e), w)
        | none => ((cleared ⟨t.depth, r.node⟩, none), w)

end Extents

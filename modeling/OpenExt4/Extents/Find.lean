import OpenExt4.Extents.Formed
import Mathlib.Data.List.GetD

set_option autoImplicit false

/-! # Lookups

In a well-formed tree the path to a block ends at the last extent that begins at or before it, or at
the very first one. So the lookups answer with what the tree maps. -/

namespace Extents

/-! ## Binary search -/

/-- The loop keeps the boundary between the keys up to the block and those behind it. -/
theorem searchLoop_spec {keys : List ℕ} (hsorted : keys.Pairwise (· < ·)) {block fuel l hi : ℕ}
    (hfuel : hi ≤ l + fuel) (hl : 1 ≤ l) (hlhi : l ≤ hi) (hhi : hi ≤ keys.length)
    (hlow : l = 1 ∨ keys.getD (l - 1) 0 ≤ block)
    (hhigh : ∀ j, hi ≤ j → j < keys.length → block < keys.getD j 0) :
    searchLoop keys block fuel l hi < hi ∧
      (searchLoop keys block fuel l hi = 0 ∨
        keys.getD (searchLoop keys block fuel l hi) 0 ≤ block) ∧
      ∀ j, searchLoop keys block fuel l hi < j → j < keys.length → block < keys.getD j 0 := by
  induction fuel generalizing l hi with
  | zero =>
      have heq : searchLoop keys block 0 l hi = l - 1 := rfl
      rw [heq]
      refine ⟨by omega, ?_, fun j hj hlen => hhigh j (by omega) hlen⟩
      rcases hlow with rfl | hlow
      · exact .inl rfl
      · exact .inr hlow
  | succ fuel ih =>
      rw [searchLoop]
      by_cases hmore : l < hi
      · rw [if_pos hmore]
        dsimp only
        obtain ⟨m, hm⟩ : ∃ m, m = l + (hi - 1 - l) / 2 := ⟨_, rfl⟩
        rw [← hm]
        have hmlen : m < keys.length := by omega
        by_cases hbelow : block < keys.getD m 0
        · rw [if_pos hbelow]
          have hright (j : ℕ) (hj : m ≤ j) (hlen : j < keys.length) : block < keys.getD j 0 := by
            rcases Nat.eq_or_lt_of_le hj with rfl | hlt
            · exact hbelow
            · have hgrow := List.pairwise_iff_getElem.mp hsorted m j hmlen hlen hlt
              simp only [List.getD_eq_getElem _ _ hmlen, List.getD_eq_getElem _ _ hlen] at *
              omega
          obtain ⟨hlt, hrest⟩ := ih (by omega) hl (by omega) (by omega) hlow hright
          exact ⟨by omega, hrest⟩
        · rw [if_neg hbelow]
          exact ih (by omega) (by omega) (by omega) hhi (.inr (by simpa using hbelow)) hhigh
      · rw [if_neg hmore]
        refine ⟨by omega, ?_, fun j hj hlen => hhigh j (by omega) hlen⟩
        rcases hlow with rfl | hlow
        · exact .inl rfl
        · exact .inr hlow

/-- **The binary search finds the last key up to the block**, or the first key. -/
theorem binsearch_spec {keys : List ℕ} (hsorted : keys.Pairwise (· < ·)) (hne : keys ≠ [])
    (block : ℕ) : binsearch keys block < keys.length ∧
      (binsearch keys block = 0 ∨ keys.getD (binsearch keys block) 0 ≤ block) ∧
      ∀ j, binsearch keys block < j → j < keys.length → block < keys.getD j 0 := by
  have hpos := List.length_pos_iff.mpr hne
  exact searchLoop_spec hsorted (by omega) le_rfl hpos le_rfl (.inl rfl) fun j hj hlen => by omega

/-- The same for a list of entries with keys. -/
theorem binsearch_entries {α : Type} {key : α → ℕ} {entries : List α} (block : ℕ)
    (hsorted : (entries.map key).Pairwise (· < ·)) (hne : entries ≠ []) :
    ∃ before cur behind, entries = before ++ cur :: behind ∧
      entries[binsearch (entries.map key) block]? = some cur ∧
      entries.take (binsearch (entries.map key) block) = before ∧
      entries.drop (binsearch (entries.map key) block + 1) = behind ∧
      (before = [] ∨ key cur ≤ block) ∧ ∀ e ∈ behind, block < key e := by
  obtain ⟨hlt, hlow, hhigh⟩ := binsearch_spec hsorted (by simpa using hne) block
  rw [List.length_map] at hlt hhigh
  generalize binsearch (entries.map key) block = i at *
  have hgetD (j : ℕ) (hj : j < entries.length) : (entries.map key).getD j 0 = key entries[j] := by
    simp [List.getD_eq_getElem?_getD, hj]
  refine ⟨entries.take i, entries[i], entries.drop (i + 1), ?_, by simp [hlt], rfl, rfl, ?_, ?_⟩
  · rw [← List.drop_eq_getElem_cons hlt, List.take_append_drop]
  · rcases hlow with rfl | hlow
    · exact .inl (by simp)
    · rw [hgetD i hlt] at hlow
      exact .inr hlow
  · intro e he
    obtain ⟨j, hj, rfl⟩ := List.mem_iff_getElem.mp he
    rw [List.length_drop] at hj
    have hat := hhigh (i + 1 + j) (by omega) (by omega)
    rw [hgetD _ (by omega)] at hat
    simpa using hat

/-! ## Nodes and their extents -/

variable {space top d : ℕ}

/-- A well-formed node holds extents, and its key is the first block of the first of them. -/
theorem Tree.Formed.head {t : Tree d} (h : Tree.Formed space top d t) :
    ∃ e rest, Tree.extents d t = e :: rest ∧ e.firstBlock = Tree.firstKey d t := by
  induction d generalizing top with
  | zero =>
      obtain ⟨e, rest, heq⟩ := List.exists_cons_of_ne_nil (Node.Ok.nonempty (α := Extent) h)
      refine ⟨e, rest, heq, ?_⟩
      show e.firstBlock = _
      simp [Tree.firstKey, heq]
  | succ d ih =>
      obtain ⟨hok, hkids⟩ := h
      obtain ⟨k, rest, heq⟩ := List.exists_cons_of_ne_nil hok.nonempty
      obtain ⟨hkey, hchild⟩ := hkids k (by rw [heq]; exact List.mem_cons_self)
      obtain ⟨e, more, hext, hfirst⟩ := ih hchild
      refine ⟨e, more ++ rest.flatMap fun k => Tree.extents d k.child, ?_, ?_⟩
      · simp only [Tree.extents, heq, List.flatMap_cons, hext, List.cons_append]
      · rw [hfirst, ← hkey]
        simp [Tree.firstKey, heq]

/-- The keys of the entries of an index node grow. -/
theorem keys_sorted {entries : List (Index (Tree d))}
    (hkids : ∀ k ∈ entries, k.firstBlock = Tree.firstKey d k.child ∧
      Tree.Formed space top d k.child)
    (hordered : Ordered (entries.flatMap fun k => Tree.extents d k.child)) :
    (entries.map (·.firstBlock)).Pairwise (· < ·) := by
  induction entries with
  | nil => exact List.Pairwise.nil
  | cons k rest ih =>
      rw [List.flatMap_cons] at hordered
      rw [List.map_cons, List.pairwise_cons]
      refine ⟨?_, ih (fun k hk => hkids k (List.mem_cons_of_mem _ hk))
        (Ordered.append.mp hordered).2.1⟩
      intro key hkey
      obtain ⟨k', hk', rfl⟩ := List.mem_map.mp hkey
      obtain ⟨hkk, hformed⟩ := hkids k List.mem_cons_self
      obtain ⟨hkk', hformed'⟩ := hkids k' (List.mem_cons_of_mem _ hk')
      obtain ⟨e, es, hext, hfirst⟩ := hformed.head
      obtain ⟨e', es', hext', hfirst'⟩ := hformed'.head
      have hmem : e ∈ Tree.extents d k.child := by rw [hext]; exact List.mem_cons_self
      have hmem' : e' ∈ rest.flatMap fun k => Tree.extents d k.child :=
        List.mem_flatMap.mpr ⟨k', hk', by rw [hext']; exact List.mem_cons_self⟩
      have := hordered.firstBlock_lt hmem hmem'
      omega

/-- No extent of a child begins before the key of its index. -/
theorem key_le {k : Index (Tree d)} (hkey : k.firstBlock = Tree.firstKey d k.child)
    (hformed : Tree.Formed space top d k.child) (hordered : Ordered (Tree.extents d k.child))
    {e : Extent} (he : e ∈ Tree.extents d k.child) : k.firstBlock ≤ e.firstBlock := by
  obtain ⟨e', es, hext, hfirst⟩ := hformed.head
  rw [hext] at he hordered
  rcases List.mem_cons.mp he with rfl | he
  · omega
  · have := (Ordered.cons.mp hordered).2.2 e he
    omega

/-! ## Paths -/

/-- The extents before the one the path comes to, in the order of the leaves. -/
def Path.left : (d : ℕ) → Path d → List Extent
  | 0, (p : LeafPath) => p.before
  | d + 1, (p : IndexPath (Tree d) (Path d)) =>
    (p.before.flatMap fun k => Tree.extents d k.child) ++ Path.left d p.below

/-- The extents behind it. -/
def Path.right : (d : ℕ) → Path d → List Extent
  | 0, (p : LeafPath) => p.behind
  | d + 1, (p : IndexPath (Tree d) (Path d)) =>
    Path.right d p.below ++ p.behind.flatMap fun k => Tree.extents d k.child

/-- A path splits the extents of its tree. -/
theorem Path.extents_tree (d : ℕ) (p : Path d) : Tree.extents d (Path.tree d p)
    = Path.left d p ++ (Path.extent d p).toList ++ Path.right d p := by
  induction d with
  | zero => rfl
  | succ d ih =>
      have hbelow := ih (IndexPath.below p)
      simp only [Path.tree, Tree.extents, Path.left, Path.right, Path.extent, List.flatMap_append,
        List.flatMap_cons, hbelow, List.append_assoc]

/-- The path of a lookup: it leads through the tree, to an extent before which nothing else begins
    up to the block, and behind which nothing begins up to it. -/
structure Leads (d : ℕ) (t : Tree d) (block : ℕ) (p : Path d) (ex : Extent) : Prop where
  tree : Path.tree d p = t
  extent : Path.extent d p = some ex
  first : Path.left d p = [] ∨ ex.firstBlock ≤ block
  behind : ∀ e ∈ Path.right d p, block < e.firstBlock

theorem leafPath_leads {block : ℕ} {n : Node Extent} (hne : n.entries ≠ [])
    (hordered : Ordered n.entries) : ∃ ex, Leads 0 n block (leafPath n block) ex := by
  have hsorted : (n.entries.map Extent.firstBlock).Pairwise (· < ·) := by
    refine List.pairwise_map.mpr (hordered.apart.imp_of_mem fun {a b} ha hb hle => ?_)
    have := (hordered.sound a ha).pos
    omega
  obtain ⟨before, cur, behind, heq, hcur, htake, hdrop, hfirst, hbehind⟩ :=
    binsearch_entries block hsorted hne
  refine ⟨cur, ?_, hcur, ?_, ?_⟩
  · simp only [Path.tree, LeafPath.node, leafPath, hcur, htake, hdrop, Option.toList_some,
      List.append_assoc, List.singleton_append, ← heq]
  · simpa only [Path.left, leafPath, htake] using hfirst
  · simpa only [Path.right, leafPath, hdrop] using hbehind

/-- The extents of a child are ordered. -/
theorem Ordered.child {before behind : List (Index (Tree d))} {k : Index (Tree d)}
    (h : Ordered ((before ++ k :: behind).flatMap fun k => Tree.extents d k.child)) :
    Ordered (before.flatMap fun k => Tree.extents d k.child) ∧ Ordered (Tree.extents d k.child) ∧
      Ordered (behind.flatMap fun k => Tree.extents d k.child) := by
  rw [List.flatMap_append, List.flatMap_cons] at h
  have hrest := (Ordered.append.mp h).2.1
  exact ⟨(Ordered.append.mp h).1, (Ordered.append.mp hrest).1, (Ordered.append.mp hrest).2.1⟩

/-- The extent before which a path has nothing is the first one of its tree. -/
theorem Leads.key {t : Tree d} {block : ℕ} {p : Path d} {ex : Extent} (h : Leads d t block p ex)
    (hformed : Tree.Formed space top d t) (hleft : Path.left d p = []) :
    ex.firstBlock = Tree.firstKey d t := by
  obtain ⟨e, rest, hext, hfirst⟩ := hformed.head
  have hsplit := Path.extents_tree d p
  rw [h.tree, h.extent, hleft, hext] at hsplit
  simp only [Option.toList_some, List.nil_append, List.singleton_append, List.cons.injEq] at hsplit
  rw [← hsplit.1, hfirst]

/-- **A lookup in a well-formed tree** finds such a path, if the blocks on the way can be read. -/
theorem findFrom_leads {look : Look} {block : ℕ} {t : Tree d} {p : Path d}
    (hformed : Tree.Formed space top d t) (hordered : Ordered (Tree.extents d t))
    (h : findFrom look space block d t = .ok p) : ∃ ex, Leads d t block p ex := by
  induction d generalizing top with
  | zero =>
      obtain rfl := Except.ok.inj h
      exact leafPath_leads hformed.nonempty hordered
  | succ d ih =>
      obtain ⟨hok, hkids⟩ := hformed
      obtain ⟨before, k, behind, heq, hcur, htake, hdrop, hfirst, hbehind⟩ :=
        binsearch_entries block (keys_sorted hkids hordered) hok.nonempty
      rw [findFrom, hcur] at h
      dsimp only at h
      split_ifs at h with hread hcheck
      split at h
      · cases h
      next q hq =>
        obtain ⟨hkey, hchild⟩ := hkids k (by rw [heq]; simp)
        have hparts := hordered
        simp only [Tree.extents] at hparts
        rw [heq] at hparts
        obtain ⟨ex, hleads⟩ := ih hchild hparts.child.2.1 hq
        cases h
        refine ⟨ex, ?_, hleads.extent, ?_, ?_⟩
        · simp only [Path.tree, htake, hdrop, hleads.tree]
          rw [← heq]
        · simp only [Path.left, htake]
          rcases hleads.first with hleft | hle
          · rcases hfirst with hnone | hle
            · exact .inl (by rw [hnone, hleft]; rfl)
            · have := hleads.key hchild hleft
              exact .inr (by omega)
          · exact .inr hle
        · simp only [Path.right, hdrop, List.mem_append, List.mem_flatMap]
          rintro e (he | ⟨k', hk', he⟩)
          · exact hleads.behind e he
          · obtain ⟨hkey', hchild'⟩ := hkids k' (by rw [heq]; simp [hk'])
            obtain ⟨l, m, hl⟩ := List.append_of_mem hk'
            rw [hl] at hparts
            have hordered' := hparts.child.2.2.child.2.1
            have hle := key_le hkey' hchild' hordered' he
            have := hbehind k' hk'
            omega

theorem Tree.Formed.check_eq {t : Tree d} (h : Tree.Formed space top d t) :
    Tree.check top d t = true := by
  cases d with
  | zero => exact Node.Ok.check (α := Extent) h
  | succ d => exact h.1.check

/-- Where all blocks can be read, the walk comes to a leaf. -/
theorem findFrom_ok {look : Look} {t : Tree d} (block : ℕ) (hformed : Tree.Formed space top d t)
    (hordered : Ordered (Tree.extents d t)) (hread : ∀ b, look.unreadable b = false) :
    ∃ p, findFrom look space block d t = .ok p := by
  induction d generalizing top with
  | zero => exact ⟨_, rfl⟩
  | succ d ih =>
      obtain ⟨hok, hkids⟩ := hformed
      obtain ⟨before, k, behind, heq, hcur, -⟩ :=
        binsearch_entries block (keys_sorted hkids hordered) hok.nonempty
      obtain ⟨-, hchild⟩ := hkids k (by rw [heq]; simp)
      have hparts := hordered
      simp only [Tree.extents] at hparts
      rw [heq] at hparts
      obtain ⟨q, hq⟩ := ih hchild hparts.child.2.1
      rw [findFrom, hcur]
      simp [hread, hchild.check_eq, hq]

/-! ## Whole trees -/

/-- The extents of the whole tree. -/
def ExtTree.extents (t : ExtTree) : List Extent := Tree.extents t.depth t.root

/-- **A lookup in a well-formed tree** leads to an extent, unless there is none. -/
theorem findExtent_leads {blockSize block : ℕ} {look : Look} {t : ExtTree} {p : Path t.depth}
    (hwf : t.WellFormed blockSize) (h : findExtent look blockSize t block = .ok p) :
    (t.extents = [] ∧ Path.extent t.depth p = none) ∨
      ∃ ex, Leads t.depth t.root block p ex := by
  unfold findExtent at h
  split_ifs at h
  cases hempty : Tree.isEmpty t.depth t.root with
  | false => exact .inr (findFrom_leads (hwf.formed hempty) hwf.ordered h)
  | true =>
      obtain ⟨depth, root⟩ := t
      obtain rfl : depth = 0 := hwf.empty hempty
      obtain rfl := Except.ok.inj h
      have hnil : Node.entries root = [] := List.isEmpty_iff.mp hempty
      exact .inl ⟨hnil, by simp [Path.extent, leafPath, hnil]⟩

theorem findExtent_ok (block : ℕ) {blockSize : ℕ} {look : Look} {t : ExtTree}
    (hwf : t.WellFormed blockSize) (hmemory : look.memory = true)
    (hread : ∀ b, look.unreadable b = false) : ∃ p, findExtent look blockSize t block = .ok p := by
  have hdepth := hwf.depth_le
  rw [findExtent, if_neg (by omega), if_neg (by simp [hwf.check]), if_neg (by simp [hmemory])]
  cases hempty : Tree.isEmpty t.depth t.root with
  | false => exact findFrom_ok block (hwf.formed hempty) hwf.ordered hread
  | true =>
      obtain ⟨depth, root⟩ := t
      obtain rfl : depth = 0 := hwf.empty hempty
      exact ⟨_, rfl⟩

/-- In a sound extent the test of the lookups is the right one. -/
theorem Extent.Sound.covers_iff {e : Extent} {block : ℕ} (h : e.Sound) (hblock : block < 2 ^ 32) :
    e.covers block = true ↔ e.firstBlock ≤ block ∧ block < e.firstBlock + e.len := by
  have hpos := h.pos
  have hfits := h.fits
  rw [Extent.covers_iff hblock]
  omega

theorem Leads.mem {t : Tree d} {block : ℕ} {p : Path d} {ex : Extent} (h : Leads d t block p ex) :
    ex ∈ Tree.extents d t := by
  rw [← h.tree, Path.extents_tree, h.extent]
  simp

/-- An empty node holds no extents. -/
theorem Tree.extents_of_isEmpty {t : Tree d} (h : Tree.isEmpty d t = true) :
    Tree.extents d t = [] := by
  cases d with
  | zero => exact List.isEmpty_iff.mp h
  | succ d =>
      have hnil := List.isEmpty_iff.mp h
      simp [Tree.extents, hnil]

theorem Leads.isEmpty {t : Tree d} {block : ℕ} {p : Path d} {ex : Extent}
    (h : Leads d t block p ex) : Tree.isEmpty d t = false := by
  by_contra hempty
  have hmem := h.mem
  rw [Tree.extents_of_isEmpty (by simpa using hempty)] at hmem
  cases hmem

/-- A block is mapped just if the extent that its path leads to covers it. -/
theorem Leads.mapOf_eq {t : Tree d} {block : ℕ} {p : Path d} {ex : Extent} (h : Leads d t block p ex)
    (hordered : Ordered (Tree.extents d t)) (hblock : block < 2 ^ 32) :
    mapOf (Tree.extents d t) block = if ex.covers block then
      some (ex.start + (block - ex.firstBlock), ex.isUnwritten) else none := by
  have hsplit := Path.extents_tree d p
  rw [h.tree, h.extent] at hsplit
  have hmem := h.mem
  have hcovers := (hordered.sound ex hmem).covers_iff hblock
  by_cases hin : ex.covers block = true
  · rw [if_pos hin, mapOf_eq_some hordered]
    exact ⟨ex, hmem, (hcovers.mp hin).1, (hcovers.mp hin).2, rfl⟩
  · rw [if_neg hin, mapOf_eq_none]
    intro e he
    rw [hsplit] at he hordered
    obtain ⟨hinit, -, -⟩ := Ordered.append.mp hordered
    rcases List.mem_append.mp he with he | he
    · rcases List.mem_append.mp he with he | he
      · -- an extent before the one found ends before the block
        have hle := (Ordered.append.mp hinit).2.2 e he ex (by simp)
        rcases h.first with hnil | hfirst
        · rw [hnil] at he
          cases he
        · omega
      · obtain rfl : e = ex := by simpa using he
        rwa [← hcovers]
    · have := h.behind e he
      omega

end Extents

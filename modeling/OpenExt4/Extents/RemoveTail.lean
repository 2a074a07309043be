import OpenExt4.Extents.Cut
import OpenExt4.Extents.Find
import Mathlib.Data.List.Count

set_option autoImplicit false

/-! # Removing the tail

What `ext4_extent_remove_space` does from a block on to the end. The step is the removal in one
node: the induction is on its depth, and in an index node on the entries behind the path. -/

namespace Extents

variable {space top frm upTo d : ℕ} {unreadable : ℕ → Bool}

/-! ## The leaf -/

/-- The blocks of the extents given back one run after the other. -/
def Pool.giveExtents (w : Pool) (es : List Extent) : Pool :=
  es.foldl (fun w e => w.give e.start e.len) w

theorem Pool.freed_giveExtents (w : Pool) (es : List Extent) :
    (w.giveExtents es).freed = w.freed ++ es.flatMap Extent.blocks := by
  induction es generalizing w with
  | nil => simp [Pool.giveExtents]
  | cons e rest ih =>
      have hnext := ih (w.give e.start e.len)
      rw [List.flatMap_cons, ← List.append_assoc]
      exact hnext

/-- Extents inside the range stay in their slots, and their blocks are given back. -/
theorem removeLoop_inside {here : List Extent} {s : LeafLoop} {w : Pool} (hup : upTo < 2 ^ 32)
    (hsound : ∀ e ∈ here, e.Sound)
    (hin : ∀ e ∈ here, frm ≤ e.firstBlock ∧ e.firstBlock + e.len ≤ upTo + 1) :
    removeLoop frm upTo here s w
      = ({ s with edited := s.edited ++ here }, [], w.giveExtents here) := by
  induction here generalizing s w with
  | nil => simp [removeLoop, Pool.giveExtents]
  | cons e rest ih =>
      obtain ⟨hlow, hhigh⟩ := hin e List.mem_cons_self
      have hpos := (hsound e List.mem_cons_self).pos
      rw [removeLoop, if_neg (by omega), if_neg (by omega), if_neg (by omega),
        ih (fun e he => hsound e (List.mem_cons_of_mem _ he))
          fun e he => hin e (List.mem_cons_of_mem _ he)]
      simp [Pool.giveExtents]

/-- The block that a removal carries up is that of the first entry left. -/
def Carries (border : Option ℕ) (old : ℕ) (first : Option ℕ) : Prop :=
  ∀ key, first = some key → border.getD old = key

/-- **The removal in a leaf**: of the entries from the path on, what lies before the block stays. -/
theorem removeLeaf_spec (header : Header) {before here : List Extent} {w : Pool}
    (hordered : Ordered (before ++ here)) (hup : upTo < 2 ^ 32)
    (hreach : ∀ e ∈ here, frm < e.firstBlock + e.len ∧ e.firstBlock + e.len ≤ upTo + 1) :
    ∃ border w', removeLeaf frm upTo header before here w
        = (⟨⟨header, before ++ cutAt frm here, true⟩, border, none⟩, w') ∧
      w'.freed = w.freed ++ goneFrom frm here ∧
      ∀ e es, before ++ here = e :: es →
        Carries border e.firstBlock ((before ++ cutAt frm here).head?.map (·.firstBlock)) := by
  have hhere := (Ordered.append.mp hordered).2.1
  -- behind the first of them, all begin at the block or behind it
  have habove {e : Extent} {rest : List Extent} (heq : here = e :: rest) :
      ∀ e' ∈ rest, frm ≤ e'.firstBlock := by
    subst heq
    intro e' he'
    have hle := (Ordered.cons.mp hhere).2.2 e' he'
    have hlt := (hreach e List.mem_cons_self).1
    omega
  by_cases hall : ∀ e ∈ here, frm ≤ e.firstBlock
  · rw [cutAt_of_above hall, goneFrom_of_above hall, List.append_nil]
    refine ⟨before.head?.bind fun ex => borderOf before ex.firstBlock, w.giveExtents here, ?_,
      Pool.freed_giveExtents w here, ?_⟩
    · rw [removeLeaf, removeLoop_inside hup hhere.sound fun e he => ⟨hall e he, (hreach e he).2⟩]
      simp
    · intro e es heq key hkey
      cases before with
      | nil => cases hkey
      | cons b bs =>
          obtain ⟨rfl, -⟩ := List.cons.inj heq
          simpa [borderOf] using hkey
  · cases here with
    | nil => exact absurd (by simp) hall
    | cons e rest =>
        have hrest := habove rfl
        have hlt : e.firstBlock < frm := by
          by_contra hge
          exact hall (List.forall_mem_cons.mpr ⟨by omega, hrest⟩)
        obtain ⟨hbeyond, hend⟩ := hreach e List.mem_cons_self
        have hcut : e.cut frm = some (e.reduced e.firstBlock (frm - e.firstBlock) e.start) := by
          rw [Extent.cut, if_neg (by omega), if_neg (by omega)]
        obtain ⟨hfirst, -⟩ := Extent.cut_fields hcut
        have hcuts : cutAt frm (e :: rest) = [e.reduced e.firstBlock (frm - e.firstBlock) e.start] := by
          rw [← List.singleton_append, cutAt_append, cutAt_of_above hrest]
          simp [cutAt, hcut]
        have hgone : goneFrom frm (e :: rest) = e.gone frm ++ rest.flatMap Extent.blocks := by
          rw [← goneFrom_of_above hrest]
          rfl
        rw [hcuts, hgone]
        have hpast : removeLoop frm upTo (e :: rest) ⟨[], 0, none⟩ w =
            (⟨e.reduced e.firstBlock (frm - e.firstBlock) e.start :: rest, 1, none⟩, [],
              (w.give (e.start + (frm - e.firstBlock)) (e.len - (frm - e.firstBlock))).giveExtents
                rest) := by
          rw [removeLoop, if_neg (by omega), if_pos hlt]
          dsimp only
          rw [removeLoop_inside hup (Ordered.cons.mp hhere).2.1.sound
            fun e he => ⟨hrest e he, (hreach e (List.mem_cons_of_mem _ he)).2⟩]
          rfl
        refine ⟨_, _, by rw [removeLeaf, hpast]; simp; exact ⟨rfl, rfl⟩, ?_, ?_⟩
        · rw [Pool.freed_giveExtents, ← List.append_assoc]
          rfl
        · intro e' es heq key hkey
          cases before with
          | nil =>
              simp only [List.nil_append, List.head?_cons, Option.map_some, Option.some.injEq]
                at hkey
              simpa [borderOf] using hkey
          | cons b bs =>
              obtain ⟨rfl, -⟩ := List.cons.inj heq
              simpa [borderOf] using hkey

/-- Up to the end of the block space, the range of a leaf is as good as the whole one. -/
theorem leafRange_spec (frm : ℕ) {entries : List Extent} (hordered : Ordered entries) (hne : entries ≠ []) :
    (leafRange frm extMaxBlocks entries).2 < 2 ^ 32 ∧
      ∀ e ∈ entries, e.firstBlock + e.len ≤ (leafRange frm extMaxBlocks entries).2 + 1 ∧
        e.cut (leafRange frm extMaxBlocks entries).1 = e.cut frm ∧
        e.gone (leafRange frm extMaxBlocks entries).1 = e.gone frm ∧
        (frm < e.firstBlock + e.len →
          (leafRange frm extMaxBlocks entries).1 < e.firstBlock + e.len) := by
  obtain ⟨first, rest, heq⟩ := List.exists_cons_of_ne_nil hne
  obtain ⟨init, last, hlast⟩ := List.eq_nil_or_concat entries |>.resolve_left hne
  rw [List.concat_eq_append] at hlast
  have hend : (leafRange frm extMaxBlocks entries).2 = last.firstBlock + last.len - 1 := by
    have hsound := hordered.sound last (by simp [hlast])
    have hpos := hsound.pos
    have hfits := hsound.fits
    have hwrap : (last.firstBlock + last.len + (2 ^ 32 - 1)) % 2 ^ 32
        = last.firstBlock + last.len - 1 := by omega
    have hmax : ¬ extMaxBlocks < last.firstBlock + last.len - 1 := by
      unfold extMaxBlocks
      omega
    unfold leafRange
    simp only [hlast, List.getLast?_append, List.getLast?_singleton, Option.some_or, Option.map_some,
      Option.getD_some, hwrap]
    rw [if_neg hmax]
  have hstart : (leafRange frm extMaxBlocks entries).1
      = if first.firstBlock < frm then frm else first.firstBlock := by
    simp [leafRange, heq]
  refine ⟨?_, fun e he => ?_⟩
  · have := (hordered.sound last (by simp [hlast])).fits
    rw [hend]
    omega
  · have hpos := (hordered.sound e he).pos
    have hle : first.firstBlock ≤ e.firstBlock := by
      rw [heq] at he hordered
      rcases List.mem_cons.mp he with rfl | he
      · exact le_rfl
      · have := (Ordered.cons.mp hordered).2.2 e he
        omega
    have hlast : e.firstBlock + e.len ≤ last.firstBlock + last.len := by
      rw [hlast] at he hordered
      rcases List.mem_append.mp he with he | he
      · have := (Ordered.append.mp hordered).2.2 e he last (List.mem_singleton_self last)
        omega
      · rw [List.mem_singleton.mp he]
    refine ⟨by omega, ?_⟩
    rw [hstart]
    by_cases hlt : first.firstBlock < frm
    · rw [if_pos hlt]
      exact ⟨rfl, rfl, id⟩
    · rw [if_neg hlt]
      refine ⟨?_, ?_, fun _ => by omega⟩
      · rw [Extent.cut_eq_none.mpr hle, Extent.cut_eq_none.mpr (by omega)]
      · unfold Extent.gone
        rw [Nat.sub_eq_zero_of_le hle, Nat.sub_eq_zero_of_le (by omega : frm ≤ e.firstBlock)]

/-! ## A node -/

/-- The blocks of the nodes below the top in which no extent begins before the block. -/
def Tree.emptied (frm : ℕ) : (d : ℕ) → Tree d → List ℕ
  | 0, _ => []
  | d + 1, (n : Node (Index (Tree d))) =>
    n.entries.flatMap fun k =>
      (if (Tree.extents d k.child).all fun e => frm ≤ e.firstBlock then [k.leaf] else []) ++
        Tree.emptied frm d k.child

/-- The blocks of the nodes at and below some entries in which no extent begins before the block. -/
def emptiedKids (frm : ℕ) (kids : List (Index (Tree d))) : List ℕ :=
  kids.flatMap fun k =>
    (if (Tree.extents d k.child).all fun e => frm ≤ e.firstBlock then [k.leaf] else []) ++
      Tree.emptied frm d k.child

@[simp] theorem emptiedKids_nil : emptiedKids frm ([] : List (Index (Tree d))) = [] := rfl

@[simp] theorem emptiedKids_cons {k : Index (Tree d)} {kids : List (Index (Tree d))} :
    emptiedKids frm (k :: kids)
      = (if (Tree.extents d k.child).all fun e => frm ≤ e.firstBlock then [k.leaf] else []) ++
        Tree.emptied frm d k.child ++ emptiedKids frm kids :=
  List.flatMap_cons

@[simp] theorem emptiedKids_append {as bs : List (Index (Tree d))} :
    emptiedKids frm (as ++ bs) = emptiedKids frm as ++ emptiedKids frm bs :=
  List.flatMap_append

/-- What a removal from a block on makes of a node. If the walk was broken off, the last extents are
    still there. -/
structure Removes (unreadable : ℕ → Bool) (space top frm d : ℕ) (t : Tree d) (w : Pool)
    (r : Removed (Tree d)) (w' : Pool) : Prop where
  header : Tree.header d r.node = Tree.header d t
  extents : ∃ as bs, Tree.extents d t = as ++ bs ∧
    Tree.extents d r.node = cutAt frm as ++ bs ∧ (r.error = none → bs = [])
  freed : ∃ xs, w'.freed = w.freed ++ xs ∧ (Tree.blocks d t).Perm (xs ++ Tree.blocks d r.node) ∧
    (r.error = none → xs.Perm (goneFrom frm (Tree.extents d t) ++ Tree.emptied frm d t))
  formed : Tree.isEmpty d r.node = false → Tree.Formed space top d r.node
  border : Tree.isEmpty d r.node = false →
    Tree.firstKey d r.node = r.border.getD (Tree.firstKey d t)
  left : r.error ≠ none → Tree.isEmpty d r.node = false
  readable : (∀ b, unreadable b = false) → r.error = none

theorem Tree.blocks_of_isEmpty {t : Tree d} (h : Tree.isEmpty d t = true) :
    Tree.blocks d t = [] := by
  cases d with
  | zero =>
      have hnil := List.isEmpty_iff.mp h
      simp [Tree.blocks, hnil]
  | succ d =>
      have hnil := List.isEmpty_iff.mp h
      simp [Tree.blocks, hnil]

/-- A well-formed node is not empty. -/
theorem Tree.Formed.isEmpty {t : Tree d} (h : Tree.Formed space top d t) :
    Tree.isEmpty d t = false := by
  obtain ⟨e, rest, hext, -⟩ := h.head
  by_contra hempty
  rw [Tree.extents_of_isEmpty (by simpa using hempty)] at hext
  cases hext

/-- Fewer entries pass the check too. -/
theorem Node.Ok.shrink {α : Type} {depth : ℕ} {n : Node α} (h : Node.Ok space depth n)
    {entries : List α} {isSealed : Bool} (hne : entries ≠ [])
    (hlen : entries.length ≤ n.entries.length) : Node.Ok space depth ⟨n.header, entries, isSealed⟩ := by
  refine ⟨?_, hne⟩
  have hcheck := h.check
  simp only [extCheck, decide_eq_true_eq] at hcheck ⊢
  obtain ⟨hmagic, hdepth, hzero, hspace, hcount⟩ := hcheck
  exact ⟨hmagic, hdepth, hzero, hspace, hlen.trans hcount⟩

/-- What is removed of a node that is gone altogether. -/
theorem Removes.of_done {t : Tree d} {w w' : Pool} {r : Removed (Tree d)}
    (h : Removes unreadable space top frm d t w r w') (herror : r.error = none) :
    Tree.extents d r.node = cutAt frm (Tree.extents d t) := by
  obtain ⟨as, bs, hsplit, hleft, hdone⟩ := h.extents
  rw [hdone herror, List.append_nil] at hsplit hleft
  rw [hleft, hsplit]

theorem Removes.isEmpty_iff {t : Tree d} {w w' : Pool} {r : Removed (Tree d)}
    (h : Removes unreadable space top frm d t w r w') (herror : r.error = none) :
    Tree.isEmpty d r.node = true ↔ ∀ e ∈ Tree.extents d t, frm ≤ e.firstBlock := by
  rw [← cutAt_eq_nil, ← h.of_done herror]
  constructor
  · exact Tree.extents_of_isEmpty
  · intro hnil
    by_contra hempty
    obtain ⟨e, rest, hext, -⟩ := (h.formed (by simpa using hempty)).head
    rw [hnil] at hext
    cases hext

/-- The removal in a leaf, from the entry on that the path goes through. -/
theorem removeLeaf_removes {header : Header} (before : List Extent) {here : List Extent} {isSealed : Bool} {w : Pool}
    (hok : Node.Ok top 0 (⟨header, before ++ here, isSealed⟩ : Node Extent))
    (hordered : Ordered (before ++ here)) (hbefore : ∀ e ∈ before, e.firstBlock + e.len ≤ frm)
    (hreach : ∀ e ∈ here, frm < e.firstBlock + e.len) :
    Removes unreadable space top frm 0 ⟨header, before ++ here, isSealed⟩ w
      (removeLeaf (leafRange frm extMaxBlocks (before ++ here)).1
        (leafRange frm extMaxBlocks (before ++ here)).2 header before here w).1
      (removeLeaf (leafRange frm extMaxBlocks (before ++ here)).1
        (leafRange frm extMaxBlocks (before ++ here)).2 header before here w).2 := by
  obtain ⟨hup, hrange⟩ := leafRange_spec frm hordered hok.nonempty
  generalize leafRange frm extMaxBlocks (before ++ here) = range at *
  have hhere (e : Extent) (he : e ∈ here) := hrange e (List.mem_append_right _ he)
  have hcut : cutAt range.1 here = cutAt frm here :=
    List.filterMap_congr fun e he => (hhere e he).2.1
  have hgone : goneFrom range.1 here = goneFrom frm here :=
    List.flatMap_congr fun e he => (hhere e he).2.2.1
  obtain ⟨border, w', heq, hfreed, hborder⟩ := removeLeaf_spec header hordered hup (w := w)
      fun e he => ⟨(hhere e he).2.2.2 (hreach e he), (hhere e he).1⟩
  rw [hcut] at heq hborder
  rw [hgone] at hfreed
  have hall : cutAt frm (before ++ here) = before ++ cutAt frm here := by
    rw [cutAt_append, cutAt_of_below (Ordered.append.mp hordered).1.sound hbefore]
  rw [heq]
  refine ⟨rfl, ⟨before ++ here, [], by simp [Tree.extents], by simp [Tree.extents, hall], fun _ => rfl⟩,
    ⟨goneFrom frm here, hfreed, ?_, fun _ => ?_⟩, fun hne => ?_, fun hne => ?_, by simp, fun _ => rfl⟩
  · have hperm := blocks_perm_cutAt frm (before ++ here)
    rw [hall, goneFrom_append, goneFrom_of_below hbefore, List.nil_append] at hperm
    exact hperm
  · simp [Tree.extents, Tree.emptied, goneFrom_of_below hbefore]
  · refine hok.shrink (by simpa [Tree.isEmpty] using hne) ?_
    simp [cutAt, List.length_filterMap_le]
  · obtain ⟨e, es, hsplit⟩ := List.exists_cons_of_ne_nil
      (show before ++ here ≠ [] from hok.nonempty)
    obtain ⟨e', es', hsplit'⟩ := List.exists_cons_of_ne_nil
      (show before ++ cutAt frm here ≠ [] by simpa [Tree.isEmpty] using hne)
    have hcarries := hborder e es hsplit e'.firstBlock (by rw [hsplit']; rfl)
    simp only [Tree.firstKey, hsplit, hsplit', List.head?_cons, Option.map_some, Option.getD_some]
    exact hcarries.symm

/-! ## The entries behind the path -/

/-- The index has the key of its child. -/
def Index.Keyed (space : ℕ) (k : Index (Tree d)) : Prop :=
  k.firstBlock = Tree.firstKey d k.child ∧ Tree.Formed space space d k.child

/-- What stays of an index when the removal in its child is done. -/
def keptKid (k : Index (Tree d)) (r : Removed (Tree d)) : List (Index (Tree d)) :=
  if Tree.isEmpty d r.node then [] else [⟨r.border.getD k.firstBlock, k.leaf, r.node⟩]

/-- What `settle` makes of a node, the index `k` and the entries behind it. -/
structure Settles (space frm : ℕ) (k : Index (Tree d)) (r : Removed (Tree d))
    (behind : List (Index (Tree d))) (s : Settled (Tree d)) (w : Pool) (s' : Settled (Tree d))
    (w' : Pool) : Prop where
  before : s'.before = s.before ++ keptKid k r
  length : (keptKid k r).length ≤ 1
  keyed : ∀ k' ∈ keptKid k r, k'.Keyed space
  extents : ((keptKid k r).flatMap fun k => Tree.extents d k.child)
    = cutAt frm (Tree.extents d k.child)
  freed : ∃ xs, w'.freed = w.freed ++ xs ∧
    (k.leaf :: Tree.blocks d k.child).Perm
      (xs ++ (keptKid k r).flatMap fun k => k.leaf :: Tree.blocks d k.child) ∧
    xs.Perm (goneFrom frm (Tree.extents d k.child) ++ emptiedKids frm [k])
  border : s.before ≠ [] → s'.border = s.border
  carries : s.before = [] → ∀ old, Carries s.border old (some k.firstBlock) →
    Carries s'.border old ((keptKid k r ++ behind).head?.map (·.firstBlock))

theorem settle_spec {k : Index (Tree d)} {r : Removed (Tree d)} (behind : List (Index (Tree d)))
    (s : Settled (Tree d)) {w w₁ : Pool} (hkeyed : k.Keyed space)
    (h : Removes unreadable space space frm d k.child w r w₁) (herror : r.error = none) :
    Settles space frm k r behind s w (settle s k.firstBlock k.leaf r behind w₁).1
      (settle s k.firstBlock k.leaf r behind w₁).2 := by
  obtain ⟨xs, hfreed, hperm, hexact⟩ := h.freed
  have hdone := h.of_done herror
  have hall := h.isEmpty_iff herror
  rw [settle]
  by_cases hempty : Tree.isEmpty d r.node = true
  · -- the child goes, and its index with it
    have hkept : keptKid k r = [] := if_pos hempty
    have hemptied : emptiedKids frm [k] = k.leaf :: Tree.emptied frm d k.child := by
      have habove := hall.mp hempty
      rw [emptiedKids_cons, if_pos (by simpa using habove)]
      simp
    rw [Tree.blocks_of_isEmpty hempty, List.append_nil] at hperm
    rw [Tree.extents_of_isEmpty hempty] at hdone
    rw [if_pos hempty]
    refine ⟨by simp [hkept], by simp [hkept], by simp [hkept], by simpa [hkept] using hdone,
      ⟨xs ++ [k.leaf], by simp [Pool.give, hfreed], List.perm_iff_count.mpr fun b => ?_,
        List.perm_iff_count.mpr fun b => ?_⟩, fun hne => ?_, fun hnil old _ key hkey => ?_⟩
    · have hcount := hperm.count_eq b
      simp only [hkept, List.flatMap_nil, List.count_append, List.count_cons, List.count_nil]
        at hcount ⊢
      omega
    · have hcount := (hexact herror).count_eq b
      simp only [hemptied, List.count_append, List.count_cons, List.count_nil] at hcount ⊢
      omega
    · obtain ⟨b, bs, hbefore⟩ := List.exists_cons_of_ne_nil hne
      simp [hbefore, borderOf]
    · rw [hkept, List.nil_append] at hkey
      simp [hnil, borderOf, hkey]
  · have hkept : keptKid k r = [⟨r.border.getD k.firstBlock, k.leaf, r.node⟩] := if_neg hempty
    have hformed := h.formed (by simpa using hempty)
    have hborder := h.border (by simpa using hempty)
    have hemptied : emptiedKids frm [k] = Tree.emptied frm d k.child := by
      have hnot := hall.not.mp hempty
      rw [emptiedKids_cons, if_neg (by simpa using hnot)]
      simp
    rw [if_neg hempty]
    refine ⟨by simp [hkept], by simp [hkept], ?_, by simpa [hkept] using hdone,
      ⟨xs, hfreed, List.perm_iff_count.mpr fun b => ?_, by simpa [hemptied] using hexact herror⟩,
      fun hne => ?_, fun hnil old hold key hkey => ?_⟩
    · intro k' hk'
      rw [hkept] at hk'
      obtain rfl := List.mem_singleton.mp hk'
      exact ⟨by rw [hborder, ← hkeyed.1], hformed⟩
    · have hcount := hperm.count_eq b
      simp only [hkept, List.flatMap_cons, List.flatMap_nil, List.count_append, List.count_cons,
        List.count_nil] at hcount ⊢
      omega
    · obtain ⟨b, bs, hbefore⟩ := List.exists_cons_of_ne_nil hne
      cases r.border <;> simp [hbefore, borderOf]
    · rw [hkept] at hkey
      obtain rfl := Option.some.inj hkey
      have hat := hold k.firstBlock rfl
      cases r.border <;> simp [hnil, borderOf, hat]

/-- What the loop over the entries of an index node leaves of them. -/
structure KidsRemoved (unreadable : ℕ → Bool) (space frm : ℕ) (kids : List (Index (Tree d)))
    (s : Settled (Tree d)) (w : Pool) (rest : List (Index (Tree d))) (s' : Settled (Tree d))
    (error : Option Errno) (w' : Pool) : Prop where
  before : s'.before = s.before
  length : rest.length ≤ kids.length
  keyed : ∀ k ∈ rest, k.Keyed space
  extents : ∃ as, (kids.flatMap fun k => Tree.extents d k.child)
    = as ++ rest.flatMap fun k => Tree.extents d k.child
  freed : ∃ xs, w'.freed = w.freed ++ xs ∧
    (kids.flatMap fun k => k.leaf :: Tree.blocks d k.child).Perm
      (xs ++ rest.flatMap fun k => k.leaf :: Tree.blocks d k.child) ∧
    (error = none → xs.Perm (goneFrom frm (kids.flatMap fun k => Tree.extents d k.child) ++
      emptiedKids frm kids))
  border : s.before ≠ [] → s'.border = s.border
  carries : s.before = [] → ∀ old, Carries s.border old (kids.head?.map (·.firstBlock)) →
    Carries s'.border old (rest.head?.map (·.firstBlock))
  done : error = none → rest = []
  left : error ≠ none → rest ≠ []
  readable : (∀ b, unreadable b = false) → error = none

theorem Index.Keyed.firstBlock_lt {k : Index (Tree d)} (h : k.Keyed space) :
    k.firstBlock < 2 ^ 32 := by
  obtain ⟨e, rest, -, hfirst⟩ := h.2.head
  rw [h.1, ← hfirst]
  exact e.firstBlock_lt

/-- **The loop behind the path** takes away one entry after the other. -/
theorem removeKids_spec {step : Tree d → Pool → Removed (Tree d) × Pool}
    {kids : List (Index (Tree d))} {s : Settled (Tree d)} {w : Pool}
    (hkeyed : ∀ k ∈ kids, k.Keyed space)
    (habove : ∀ k ∈ kids, ∀ e ∈ Tree.extents d k.child, frm ≤ e.firstBlock)
    (hstep : ∀ k ∈ kids, ∀ w, Removes unreadable space space frm d k.child w (step k.child w).1
      (step k.child w).2) :
    ∃ rest s' error w', removeKids unreadable space extMaxBlocks step kids s w
        = ((rest, s', error), w') ∧
      KidsRemoved unreadable space frm kids s w rest s' error w' := by
  induction kids generalizing s w with
  | nil =>
      refine ⟨[], s, none, w, rfl, rfl, le_rfl, by simp, ⟨[], rfl⟩, ⟨[], by simp, by simp, ?_⟩,
        fun _ => rfl, fun _ _ h => h, fun _ => rfl, by simp, fun _ => rfl⟩
      simp [goneFrom]
  | cons k kids ih =>
      have hk := hkeyed k List.mem_cons_self
      have hbound : ¬ extMaxBlocks < k.firstBlock := by
        have := hk.firstBlock_lt
        unfold extMaxBlocks
        omega
      rw [removeKids, if_neg hbound]
      by_cases hread : unreadable k.leaf = true
      · -- the child cannot be read
        rw [if_pos (.inl hread)]
        refine ⟨k :: kids, s, some Errno.EIO, w, rfl, rfl, le_rfl, hkeyed, ⟨[], rfl⟩,
          ⟨[], by simp, by simp, by simp⟩, fun _ => rfl, fun _ _ h => h, by simp, by simp,
          fun hall => ?_⟩
        rw [hall] at hread
        cases hread
      rw [if_neg (by simp [hread, hk.2.check_eq])]
      have hremoves := hstep k List.mem_cons_self w
      generalize step k.child w = result at hremoves ⊢
      obtain ⟨r, w₁⟩ := result
      dsimp only at hremoves ⊢
      obtain ⟨xs, hfreed, hperm, hexact⟩ := hremoves.freed
      cases herror : r.error with
      | some e =>
          -- the walk is broken off in the child
          have hleft := hremoves.left (by rw [herror]; exact Option.some_ne_none e)
          obtain ⟨as, bs, hsplit, hkept, -⟩ := hremoves.extents
          have has : cutAt frm as = [] := by
            refine cutAt_of_above fun e he => habove k List.mem_cons_self e ?_
            rw [hsplit]
            exact List.mem_append_left _ he
          rw [has, List.nil_append] at hkept
          refine ⟨_, _, _, _, rfl, rfl, le_rfl, ?_, ⟨as, ?_⟩, ⟨xs, hfreed, ?_, by simp⟩, ?_, ?_,
            by simp, by simp, ?_⟩
          · intro k' hk'
            rcases List.mem_cons.mp hk' with rfl | hk'
            · refine ⟨?_, hremoves.formed hleft⟩
              rw [hremoves.border hleft, ← hk.1]
            · exact hkeyed k' (List.mem_cons_of_mem _ hk')
          · simp only [List.flatMap_cons, hsplit, hkept, List.append_assoc]
          · refine List.perm_iff_count.mpr fun b => ?_
            have hcount := hperm.count_eq b
            simp only [List.flatMap_cons, List.count_append, List.count_cons] at hcount ⊢
            omega
          · intro hne
            obtain ⟨b, bs, heq⟩ := List.exists_cons_of_ne_nil hne
            cases r.border <;> simp [heq, borderOf]
          · intro hnil old hold key hkey
            obtain rfl := Option.some.inj hkey
            have hat := hold k.firstBlock rfl
            cases r.border <;> simp [hnil, borderOf, hat]
          · intro hall
            rw [hremoves.readable hall] at herror
            cases herror
      | none =>
          have hkept : keptKid k r = [] :=
            if_pos ((hremoves.isEmpty_iff herror).mpr (habove k List.mem_cons_self))
          have hsettles := settle_spec kids s hk hremoves herror
          dsimp only
          generalize settle s k.firstBlock k.leaf r kids w₁ = result at hsettles ⊢
          obtain ⟨s₂, w₂⟩ := result
          dsimp only at hsettles ⊢
          obtain ⟨zs, hfreed₂, hperm₂, hexact₂⟩ := hsettles.freed
          have hbefore := hsettles.before
          rw [hkept, List.append_nil] at hbefore
          obtain ⟨rest, s', error, w', heq, hrest⟩ := ih (s := s₂) (w := w₂)
            (fun k hk => hkeyed k (List.mem_cons_of_mem _ hk))
            (fun k hk => habove k (List.mem_cons_of_mem _ hk))
            (fun k hk => hstep k (List.mem_cons_of_mem _ hk))
          obtain ⟨as, hsplit⟩ := hrest.extents
          obtain ⟨ys, hfreed', hperm', hexact'⟩ := hrest.freed
          refine ⟨rest, s', error, w', heq, hrest.before.trans hbefore,
            hrest.length.trans (Nat.le_succ _), hrest.keyed, ⟨Tree.extents d k.child ++ as, ?_⟩,
            ⟨zs ++ ys, by rw [hfreed', hfreed₂, List.append_assoc], ?_, fun hnone => ?_⟩,
            fun hne => ?_, fun hnil old hold => ?_, hrest.done, hrest.left, hrest.readable⟩
          · rw [List.flatMap_cons, hsplit, List.append_assoc]
          · refine List.perm_iff_count.mpr fun b => ?_
            have hcount := hperm₂.count_eq b
            have hcount' := hperm'.count_eq b
            simp only [hkept, List.flatMap_cons, List.flatMap_nil, List.count_append, List.count_nil]
              at hcount hcount' ⊢
            omega
          · refine List.perm_iff_count.mpr fun b => ?_
            have hcount := hexact₂.count_eq b
            have hcount' := (hexact' hnone).count_eq b
            simp only [List.flatMap_cons, goneFrom_append, emptiedKids_cons, emptiedKids_nil,
              List.count_append, List.count_nil] at hcount hcount' ⊢
            omega
          · rw [hrest.border (by rwa [hbefore]), hsettles.border hne]
          · refine hrest.carries (by rwa [hbefore]) old ?_
            have hcarries := hsettles.carries hnil old hold
            rwa [hkept, List.nil_append] at hcarries

/-! ## Index nodes -/

/-- The removal in an index node, from what it makes of the entries. -/
theorem settledNode_removes {n : Node (Index (Tree d))} {s : Settled (Tree d)}
    {rest : List (Index (Tree d))} {error : Option Errno} {w w' : Pool}
    (hformed : Tree.Formed space top (d + 1) n)
    (hlength : (s.before ++ rest).length ≤ n.entries.length)
    (hkeyed : ∀ k ∈ s.before ++ rest, k.Keyed space)
    (hextents : ∃ as bs, (n.entries.flatMap fun k => Tree.extents d k.child) = as ++ bs ∧
      ((s.before ++ rest).flatMap fun k => Tree.extents d k.child) = cutAt frm as ++ bs ∧
      (error = none → bs = []))
    (hfreed : ∃ xs, w'.freed = w.freed ++ xs ∧
      (n.entries.flatMap fun k => k.leaf :: Tree.blocks d k.child).Perm
        (xs ++ (s.before ++ rest).flatMap fun k => k.leaf :: Tree.blocks d k.child) ∧
      (error = none → xs.Perm (goneFrom frm (n.entries.flatMap fun k => Tree.extents d k.child) ++
        emptiedKids frm n.entries)))
    (hcarries : ∀ key, n.entries.head?.map (·.firstBlock) = some key →
      Carries s.border key ((s.before ++ rest).head?.map (·.firstBlock)))
    (hleft : error ≠ none → s.before ++ rest ≠ [])
    (hreadable : (∀ b, unreadable b = false) → error = none) :
    Removes unreadable space top frm (d + 1) n w (settledNode n.header n.isSealed s rest error) w' := by
  obtain ⟨hok, -⟩ := hformed
  refine ⟨rfl, hextents, hfreed, fun hne => ?_, fun hne => ?_, fun herror => ?_, hreadable⟩
  · exact ⟨hok.shrink (by simpa [settledNode, Tree.isEmpty] using hne) hlength, hkeyed⟩
  · obtain ⟨k, ks, hsplit⟩ := List.exists_cons_of_ne_nil hok.nonempty
    obtain ⟨k', ks', hsplit'⟩ := List.exists_cons_of_ne_nil
      (show s.before ++ rest ≠ [] by simpa [settledNode, Tree.isEmpty] using hne)
    have hcarry := hcarries k.firstBlock (by rw [hsplit]; rfl) k'.firstBlock (by rw [hsplit']; rfl)
    simp only [Tree.firstKey, settledNode, hsplit, hsplit', List.head?_cons, Option.map_some,
      Option.getD_some]
    exact hcarry.symm
  · simpa [settledNode, Tree.isEmpty] using hleft herror

/-- **The removal in a node behind the first leaf.** -/
theorem removeNode_removes {t : Tree d} {w : Pool} (hformed : Tree.Formed space top d t)
    (hordered : Ordered (Tree.extents d t))
    (habove : ∀ e ∈ Tree.extents d t, frm ≤ e.firstBlock) :
    Removes unreadable space top frm d t w (removeNode unreadable space frm extMaxBlocks d t w).1
      (removeNode unreadable space frm extMaxBlocks d t w).2 := by
  induction d generalizing top w with
  | zero =>
      obtain ⟨header, entries, isSealed⟩ : Node Extent := t
      refine removeLeaf_removes [] hformed hordered (by simp) fun e he => ?_
      have hpos := (hordered.sound e he).pos
      have hle := habove e he
      omega
  | succ d ih =>
      obtain ⟨n, rfl⟩ : ∃ n : Node (Index (Tree d)), n = t := ⟨t, rfl⟩
      have hkid (k : Index (Tree d)) (hk : k ∈ n.entries) : Ordered (Tree.extents d k.child) ∧
          ∀ e ∈ Tree.extents d k.child, frm ≤ e.firstBlock := by
        obtain ⟨l, m, hl⟩ := List.append_of_mem hk
        rw [Tree.extents, hl] at hordered
        exact ⟨hordered.child.2.1, fun e he => habove e (List.mem_flatMap.mpr ⟨k, hk, he⟩)⟩
      obtain ⟨rest, s', error, w', heq, hkids⟩ :=
        removeKids_spec (s := ⟨[], none, false⟩) (w := w) hformed.2
          (fun k hk => (hkid k hk).2)
          (fun k hk w => ih (hformed.2 k hk).2 (hkid k hk).1 (hkid k hk).2)
      rw [removeNode, heq]
      dsimp only
      have hbefore := hkids.before
      obtain ⟨as, hsplit⟩ := hkids.extents
      have has : cutAt frm as = [] := by
        refine cutAt_of_above fun e he => habove e ?_
        rw [Tree.extents, hsplit]
        exact List.mem_append_left _ he
      refine settledNode_removes hformed ?_ ?_ ⟨as, _, hsplit, ?_, fun hnone => ?_⟩ ?_ ?_ ?_
        hkids.readable
      · rw [hbefore]
        exact hkids.length
      · rw [hbefore]
        exact hkids.keyed
      · rw [hbefore, has]
        rfl
      · rw [hkids.done hnone]
        rfl
      · rw [hbefore]
        exact hkids.freed
      · rw [hbefore]
        exact fun key hkey => hkids.carries rfl key fun key' hkey' => by simpa [hkey] using hkey'
      · rw [hbefore]
        exact hkids.left

/-! ## The path -/

/-- Around the extent that covers the block, all others lie before it or behind it. -/
theorem sides_of_covers {left right : List Extent} {ex : Extent}
    (hordered : Ordered (left ++ [ex] ++ right)) (hle : ex.firstBlock ≤ frm)
    (hlt : frm < ex.firstBlock + ex.len) :
    (∀ e ∈ left, e.firstBlock + e.len ≤ frm) ∧ ∀ e ∈ right, frm ≤ e.firstBlock := by
  obtain ⟨hinit, -, hbehind⟩ := Ordered.append.mp hordered
  constructor
  · intro e he
    have := (Ordered.append.mp hinit).2.2 e he ex (List.mem_singleton_self ex)
    omega
  · intro e he
    have := hbehind ex (List.mem_append_right _ (List.mem_singleton_self ex)) e he
    omega

/-- A child is not emptied if an extent in it begins before the block. -/
theorem Index.Keyed.not_all {k : Index (Tree d)} (h : k.Keyed space)
    (hbelow : ∀ e ∈ Tree.extents d k.child, e.Sound ∧ e.firstBlock + e.len ≤ frm) :
    ¬ ((Tree.extents d k.child).all fun e => frm ≤ e.firstBlock) = true := by
  obtain ⟨e, rest, hext, -⟩ := h.2.head
  obtain ⟨hsound, hend⟩ := hbelow e (by rw [hext]; exact List.mem_cons_self)
  have hpos := hsound.pos
  rw [hext]
  simp
  omega

theorem Tree.emptied_of_below {t : Tree d} (hformed : Tree.Formed space top d t)
    (h : ∀ e ∈ Tree.extents d t, e.Sound ∧ e.firstBlock + e.len ≤ frm) :
    Tree.emptied frm d t = [] := by
  induction d generalizing top with
  | zero => rfl
  | succ d ih =>
      obtain ⟨n, rfl⟩ : ∃ n : Node (Index (Tree d)), n = t := ⟨t, rfl⟩
      refine List.flatMap_eq_nil_iff.mpr fun k hk => ?_
      have hkeyed : k.Keyed space := hformed.2 k hk
      have hbelow : ∀ e ∈ Tree.extents d k.child, e.Sound ∧ e.firstBlock + e.len ≤ frm :=
        fun e he => h e (List.mem_flatMap.mpr ⟨k, hk, he⟩)
      rw [if_neg (hkeyed.not_all hbelow), ih hkeyed.2 hbelow]
      rfl

theorem emptiedKids_of_below {kids : List (Index (Tree d))} (hkeyed : ∀ k ∈ kids, k.Keyed space)
    (h : ∀ k ∈ kids, ∀ e ∈ Tree.extents d k.child, e.Sound ∧ e.firstBlock + e.len ≤ frm) :
    emptiedKids frm kids = [] := by
  refine List.flatMap_eq_nil_iff.mpr fun k hk => ?_
  rw [if_neg ((hkeyed k hk).not_all (h k hk)), Tree.emptied_of_below (hkeyed k hk).2 (h k hk)]
  rfl

/-- Around the extent that covers the block, all others on the path lie before it or behind it. -/
theorem Path.sides {p : Path d} {ex : Extent}
    (hordered : Ordered (Tree.extents d (Path.tree d p))) (hex : Path.extent d p = some ex)
    (hle : ex.firstBlock ≤ frm) (hlt : frm < ex.firstBlock + ex.len) :
    (∀ e ∈ Path.left d p, e.firstBlock + e.len ≤ frm) ∧
      ∀ e ∈ Path.right d p, frm ≤ e.firstBlock := by
  rw [Path.extents_tree, hex] at hordered
  exact sides_of_covers hordered hle hlt

/-- **The removal along the path** to the extent that covers the block. -/
theorem removePath_removes (unreadable : ℕ → Bool) (w : Pool) {p : Path d} {ex : Extent}
    (hformed : Tree.Formed space top d (Path.tree d p))
    (hordered : Ordered (Tree.extents d (Path.tree d p))) (hex : Path.extent d p = some ex)
    (hle : ex.firstBlock ≤ frm) (hlt : frm < ex.firstBlock + ex.len) :
    Removes unreadable space top frm d (Path.tree d p) w
      (removePath unreadable space frm extMaxBlocks d p w).1
      (removePath unreadable space frm extMaxBlocks d p w).2 := by
  have hsides := Path.sides hordered hex hle hlt
  induction d generalizing top w with
  | zero =>
      obtain ⟨header, before, cur, behind, isSealed⟩ : LeafPath := p
      obtain rfl : cur = some ex := hex
      have hnode : Path.tree 0 (⟨header, before, some ex, behind, isSealed⟩ : LeafPath)
          = (⟨header, before ++ (ex :: behind), isSealed⟩ : Node Extent) := by
        simp [Path.tree, LeafPath.node]
      have hentries : (LeafPath.node ⟨header, before, some ex, behind, isSealed⟩).entries
          = before ++ (ex :: behind) := by
        simp [LeafPath.node]
      rw [hnode] at hformed hordered ⊢
      rw [removePath]
      dsimp only
      rw [hentries]
      refine removeLeaf_removes before hformed hordered hsides.1 fun e he => ?_
      rcases List.mem_cons.mp he with rfl | he
      · exact hlt
      · have hpos := (hordered.sound e (by simp [Tree.extents, he])).pos
        have hge := hsides.2 e he
        omega
  | succ d ih =>
      obtain ⟨header, before, first, leaf, below, behind, isSealed⟩ : IndexPath (Tree d) (Path d) := p
      have hnode : Path.tree (d + 1) (⟨header, before, first, leaf, below, behind, isSealed⟩ :
          IndexPath (Tree d) (Path d))
          = (⟨header, before ++ ⟨first, leaf, Path.tree d below⟩ :: behind, isSealed⟩ :
            Node (Index (Tree d))) := rfl
      rw [hnode] at hformed hordered ⊢
      have hkeyed : ∀ k ∈ before ++ ⟨first, leaf, Path.tree d below⟩ :: behind, Index.Keyed space k :=
        hformed.2
      have hk := hkeyed ⟨first, leaf, Path.tree d below⟩ (by simp)
      have hparts := Ordered.child hordered
      have hbefore : ∀ e ∈ before.flatMap fun k => Tree.extents d k.child,
          e.firstBlock + e.len ≤ frm := fun e he => hsides.1 e (List.mem_append_left _ he)
      have hbehind : ∀ e ∈ behind.flatMap fun k => Tree.extents d k.child, frm ≤ e.firstBlock :=
        fun e he => hsides.2 e (List.mem_append_right _ he)
      have hkept : cutAt frm (before.flatMap fun k => Tree.extents d k.child)
          = before.flatMap fun k => Tree.extents d k.child :=
        cutAt_of_below hparts.1.sound hbefore
      have hremoves := ih w hk.2 hparts.2.1 hex (Path.sides hparts.2.1 hex hle hlt)
      rw [removePath]
      dsimp only
      generalize removePath unreadable space frm extMaxBlocks d below w = result at hremoves ⊢
      obtain ⟨r, w₁⟩ := result
      dsimp only at hremoves ⊢
      obtain ⟨as, bs, hsplit, hcut, hdone⟩ := hremoves.extents
      obtain ⟨xs, hfreed, hperm, hexact⟩ := hremoves.freed
      cases herror : r.error with
      | some e =>
          have hleft := hremoves.left (by rw [herror]; exact Option.some_ne_none e)
          refine settledNode_removes hformed (by simp) ?_ ?_ ?_ ?_ (by simp) ?_
          · intro k' hk'
            rcases List.mem_append.mp hk' with hk' | hk'
            · exact hkeyed k' (List.mem_append_left _ hk')
            rcases List.mem_cons.mp hk' with rfl | hk'
            · refine ⟨?_, hremoves.formed hleft⟩
              rw [hremoves.border hleft, ← hk.1]
            · exact hkeyed k' (by simp [hk'])
          · refine ⟨(before.flatMap fun k => Tree.extents d k.child) ++ as,
              bs ++ behind.flatMap fun k => Tree.extents d k.child, ?_, ?_, by simp⟩
            · simp [hsplit]
            · simp [hcut, hkept]
          · refine ⟨xs, hfreed, List.perm_iff_count.mpr fun b => ?_, by simp⟩
            have hcount := hperm.count_eq b
            simp only [List.flatMap_append, List.flatMap_cons, List.count_append, List.count_cons]
              at hcount ⊢
            omega
          · intro old hold key hkey
            cases before with
            | nil =>
                obtain rfl := Option.some.inj hold
                obtain rfl := Option.some.inj hkey
                cases r.border <;> rfl
            | cons b before =>
                obtain rfl := Option.some.inj hold
                obtain rfl := Option.some.inj hkey
                cases r.border <;> rfl
          · intro hall
            rw [hremoves.readable hall] at herror
            cases herror
      | none =>
          have hnone : emptiedKids frm before = [] := by
            refine emptiedKids_of_below (fun k hk => hkeyed k (List.mem_append_left _ hk))
              fun k hk e he => ?_
            have hmem : e ∈ before.flatMap fun k => Tree.extents d k.child :=
              List.mem_flatMap.mpr ⟨k, hk, he⟩
            exact ⟨hparts.1.sound e hmem, hbefore e hmem⟩
          have habove : ∀ k ∈ behind, ∀ e ∈ Tree.extents d k.child, frm ≤ e.firstBlock :=
            fun k hk e he => hbehind e (List.mem_flatMap.mpr ⟨k, hk, he⟩)
          have hstep : ∀ k ∈ behind, ∀ w, Removes unreadable space space frm d k.child w
              (removeNode unreadable space frm extMaxBlocks d k.child w).1
              (removeNode unreadable space frm extMaxBlocks d k.child w).2 := by
            intro k hk w
            obtain ⟨l, m, rfl⟩ := List.append_of_mem hk
            exact removeNode_removes (hkeyed k (by simp)).2 hparts.2.2.child.2.1 (habove k hk)
          have hkeyed' : ∀ k ∈ behind, k.Keyed space := fun k hk => hkeyed k (by simp [hk])
          have hgone : cutAt frm (behind.flatMap fun k => Tree.extents d k.child) = [] :=
            cutAt_of_above hbehind
          rw [hdone herror, List.append_nil] at hsplit hcut
          subst hsplit
          have hsettles := settle_spec behind ⟨before, none, false⟩ hk hremoves herror
          dsimp only at hsettles ⊢
          generalize settle (⟨before, none, false⟩ : Settled (Tree d)) first leaf r behind w₁ = result
            at hsettles ⊢
          obtain ⟨s₂, w₂⟩ := result
          dsimp only at hsettles ⊢
          obtain ⟨zs, hfreed₂, hperm₂, hexact₂⟩ := hsettles.freed
          obtain ⟨rest, s', error, w', heq, hkids⟩ :=
            removeKids_spec (s := s₂) (w := w₂) hkeyed' habove hstep
          rw [heq]
          dsimp only
          obtain ⟨cs, hsplit⟩ := hkids.extents
          obtain ⟨ys, hfreed', hperm', hexact'⟩ := hkids.freed
          have hcs : cutAt frm cs = [] := by
            rw [hsplit, cutAt_append, List.append_eq_nil_iff] at hgone
            exact hgone.1
          refine settledNode_removes hformed ?_ ?_ ?_ ?_ ?_ ?_ hkids.readable
          all_goals rw [hkids.before, hsettles.before]
          · have := hkids.length
            have := hsettles.length
            simp only [List.length_append, List.length_cons]
            omega
          · intro k' hk'
            rcases List.mem_append.mp hk' with hk' | hk'
            · rcases List.mem_append.mp hk' with hk' | hk'
              · exact hkeyed k' (List.mem_append_left _ hk')
              · exact hsettles.keyed k' hk'
            · exact hkids.keyed k' hk'
          · refine ⟨(before.flatMap fun k => Tree.extents d k.child) ++
              Tree.extents d (Path.tree d below) ++ cs, rest.flatMap fun k => Tree.extents d k.child,
              ?_, ?_, fun h => ?_⟩
            · simp [hsplit]
            · simp [hkept, hsettles.extents, hcs]
            · rw [hkids.done h]
              rfl
          · refine ⟨zs ++ ys, by rw [hfreed', hfreed₂, List.append_assoc],
              List.perm_iff_count.mpr fun b => ?_, fun h => List.perm_iff_count.mpr fun b => ?_⟩
            · have hcount := hperm₂.count_eq b
              have hcount' := hperm'.count_eq b
              simp only [List.flatMap_append, List.flatMap_cons, List.count_append, List.count_cons]
                at hcount hcount' ⊢
              omega
            · have hcount := hexact₂.count_eq b
              have hcount' := (hexact' h).count_eq b
              simp only [List.flatMap_append, List.flatMap_cons, goneFrom_append,
                goneFrom_of_below hbefore, emptiedKids_append, emptiedKids_cons, emptiedKids_nil, hnone,
                List.count_append, List.count_nil] at hcount hcount' ⊢
              omega
          · intro old hold
            cases before with
            | nil =>
                obtain rfl := Option.some.inj hold
                have hcarries := hsettles.carries rfl first fun key hkey => Option.some.inj hkey
                have hbefore₂ := hsettles.before
                dsimp only [List.nil_append] at hbefore₂ ⊢
                cases hmid : keptKid ⟨first, leaf, Path.tree d below⟩ r with
                | nil =>
                    rw [hmid] at hcarries hbefore₂
                    exact hkids.carries hbefore₂ first hcarries
                | cons m mid =>
                    rw [hmid] at hcarries hbefore₂
                    rw [hkids.border (by simp [hbefore₂])]
                    exact hcarries
            | cons b before =>
                intro key hkey
                obtain rfl := Option.some.inj hold
                obtain rfl := Option.some.inj hkey
                rw [hkids.border (by simp [hsettles.before]), hsettles.border (by simp)]
                rfl
          · intro h
            have := hkids.left h
            simp [this]

end Extents

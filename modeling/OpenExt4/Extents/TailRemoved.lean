import OpenExt4.Extents.RemoveTail

set_option autoImplicit false

/-! # Is the tail removed?

It is removed exactly, if the first block is mapped. Where the first block is in a hole, or before
the first extent, the removal gives up at once and reports success: what lies behind stays. -/

namespace Extents

/-- The physical blocks of the tree but for its root. -/
def ExtTree.blocks (t : ExtTree) : List ℕ := Tree.blocks t.depth t.root

/-- The blocks of the nodes in which no extent begins before the block. -/
def ExtTree.emptied (frm : ℕ) (t : ExtTree) : List ℕ := Tree.emptied frm t.depth t.root

/-- No call of a lookup fails. -/
structure Look.Smooth (look : Look) : Prop where
  memory : look.memory = true
  readable : ∀ b, look.unreadable b = false

/-- The tail from a block on is removed: the tree `t` has become `t'`. What is set free is no longer
    in the tree; after a success it is what was mapped from the block on, and the nodes emptied. -/
structure TailRemoved (frm : ℕ) (look : Look) (t : ExtTree) (w : Pool) (t' : ExtTree)
    (error : Option Errno) (w' : Pool) : Prop where
  below : ∀ b < frm, mapOf t'.extents b = mapOf t.extents b
  tail : error = none → ∀ b, frm ≤ b → mapOf t'.extents b = none
  freed : ∃ xs, w'.freed = w.freed ++ xs ∧ t.blocks.Perm (xs ++ t'.blocks) ∧
    (error = none → xs.Perm (goneFrom frm t.extents ++ t.emptied frm))
  succeeds : look.Smooth → error = none

/-- The removal from a block on, with its result. -/
def RemovesTail (pf : Platform) (t : ExtTree) (frm : ℕ) (w : Pool) : Prop :=
  TailRemoved frm (pf.look w.calls) t w (removeSpace pf t frm extMaxBlocks w).1.1
    (removeSpace pf t frm extMaxBlocks w).1.2 (removeSpace pf t frm extMaxBlocks w).2

variable {pf : Platform} {blockSize frm : ℕ} {t : ExtTree} {w w' : Pool}

/-- A tree that is left alone has its tail removed if it has none. -/
theorem TailRemoved.unchanged {look : Look} {error : Option Errno} (hfreed : w'.freed = w.freed)
    (hnone : error = none → goneFrom frm t.extents ++ t.emptied frm = [] ∧
      ∀ b, frm ≤ b → mapOf t.extents b = none)
    (hsmooth : look.Smooth → error = none) : TailRemoved frm look t w t error w' where
  below := fun _ _ => rfl
  tail := fun herror => (hnone herror).2
  freed := ⟨[], by simp [hfreed], List.Perm.refl _, fun herror => by rw [(hnone herror).1]⟩
  succeeds := hsmooth

/-- Clearing the root of an empty tree changes nothing else. -/
theorem extents_cleared (t : ExtTree) : (cleared t).extents = t.extents := by
  unfold cleared
  split_ifs with hempty
  · exact (Tree.extents_of_isEmpty hempty).symm
  · rfl

theorem blocks_cleared (t : ExtTree) : (cleared t).blocks = t.blocks := by
  unfold cleared
  split_ifs with hempty
  · exact (Tree.blocks_of_isEmpty hempty).symm
  · rfl

theorem TailRemoved.cleared {look : Look} {t' : ExtTree} {error : Option Errno}
    (h : TailRemoved frm look t w t' error w') : TailRemoved frm look t w (cleared t') error w' := by
  refine ⟨?_, ?_, ?_, h.succeeds⟩
  · rw [extents_cleared]
    exact h.below
  · rw [extents_cleared]
    exact h.tail
  · rw [blocks_cleared]
    exact h.freed

/-- The removal in the root is that of the tail. -/
theorem Removes.tailRemoved {look : Look} {space top : ℕ} {r : Removed (Tree t.depth)}
    (h : Removes look.unreadable space top frm t.depth t.root w.tick r w') :
    TailRemoved frm look t w ⟨t.depth, r.node⟩ r.error w' where
  below := by
    intro b hb
    obtain ⟨as, bs, hsplit, hleft, -⟩ := h.extents
    rw [ExtTree.extents, ExtTree.extents, hsplit, hleft, mapOf_append, mapOf_append, mapOf_cutAt,
      if_pos hb]
  tail := by
    intro herror b hb
    rw [ExtTree.extents, h.of_done herror, mapOf_cutAt, if_neg (by omega)]
  freed := h.freed
  succeeds := fun hsmooth => h.readable hsmooth.readable

/-- **From a mapped block on**, the tail is removed. -/
theorem removesTail_of_mapped (hwf : t.WellFormed pf.blockSize) (hfrm : frm < 2 ^ 32)
    (hmapped : mapOf t.extents frm ≠ none) : RemovesTail pf t frm w := by
  unfold RemovesTail removeSpace Pool.find
  cases hfind : findExtent (pf.look w.calls) pf.blockSize t frm with
  | error e =>
      refine TailRemoved.unchanged rfl (by simp) fun hsmooth => ?_
      obtain ⟨p, hp⟩ := findExtent_ok frm hwf hsmooth.memory hsmooth.readable
      rw [hp] at hfind
      cases hfind
  | ok p =>
      rcases findExtent_leads hwf hfind with ⟨hnil, -⟩ | ⟨ex, hleads⟩
      · rw [hnil] at hmapped
        exact absurd rfl hmapped
      have hcovers : ex.covers frm = true := by
        by_contra hnot
        rw [ExtTree.extents, hleads.mapOf_eq hwf.ordered hfrm, if_neg hnot] at hmapped
        exact hmapped rfl
      have hsound := hwf.ordered.sound ex hleads.mem
      obtain ⟨hle, hlt⟩ := (hsound.covers_iff hfrm).mp hcovers
      have hend : ¬ extMaxBlocks < (ex.firstBlock + ex.len + (2 ^ 32 - 1)) % 2 ^ 32 := by
        unfold extMaxBlocks
        omega
      have hformed := hwf.formed hleads.isEmpty
      rw [← hleads.tree] at hformed
      have hremoves := removePath_removes (pf.look w.calls).unreadable w.tick hformed
        (by rw [hleads.tree]; exact hwf.ordered) hleads.extent hle hlt
      rw [hleads.tree] at hremoves
      dsimp only
      rw [hleads.extent]
      dsimp only
      rw [if_neg (by simp [hcovers]), if_neg (by simp only [hend, and_false, not_false_eq_true])]
      generalize removePath (pf.look w.calls).unreadable (spaceBlock pf.blockSize) frm extMaxBlocks
        t.depth p w.tick = result at hremoves ⊢
      obtain ⟨r, w₁⟩ := result
      dsimp only at hremoves ⊢
      have htail := hremoves.tailRemoved
      cases herror : r.error with
      | some e =>
          rw [herror] at htail
          exact htail
      | none =>
          rw [herror] at htail
          exact htail.cleared

/-- **From an unmapped block on**, nothing is removed, whatever lies behind. -/
theorem removeSpace_of_unmapped (pf : Platform) (w : Pool) (hwf : t.WellFormed pf.blockSize) (hfrm : frm < 2 ^ 32)
    (hunmapped : mapOf t.extents frm = none) : ∃ error,
      removeSpace pf t frm extMaxBlocks w = ((t, error), w.tick) ∧
        ((pf.look w.calls).Smooth → error = none) := by
  unfold removeSpace Pool.find
  cases hfind : findExtent (pf.look w.calls) pf.blockSize t frm with
  | error e =>
      refine ⟨some e, rfl, fun hsmooth => ?_⟩
      obtain ⟨p, hp⟩ := findExtent_ok frm hwf hsmooth.memory hsmooth.readable
      rw [hp] at hfind
      cases hfind
  | ok p =>
      refine ⟨none, ?_, fun _ => rfl⟩
      rcases findExtent_leads hwf hfind with ⟨-, hnone⟩ | ⟨ex, hleads⟩
      · simp [hnone]
      · have hcovers : ex.covers frm = false := by
          rw [ExtTree.extents, hleads.mapOf_eq hwf.ordered hfrm] at hunmapped
          simpa using hunmapped
        simp [hleads.extent, hcovers]

/-- Nothing is to be done where nothing is mapped. -/
theorem goneFrom_emptied_of_unmapped (hwf : t.WellFormed blockSize)
    (hunmapped : ∀ b, frm ≤ b → mapOf t.extents b = none) :
    goneFrom frm t.extents ++ t.emptied frm = [] := by
  have hbelow : ∀ e ∈ t.extents, e.firstBlock + e.len ≤ frm := by
    intro e he
    by_contra hbeyond
    have hpos := (hwf.ordered.sound e he).pos
    exact mapOf_eq_none.mp (hunmapped (e.firstBlock + e.len - 1) (by omega)) e he (by omega)
  rw [goneFrom_of_below hbelow, List.nil_append]
  cases hempty : Tree.isEmpty t.depth t.root with
  | false =>
      exact Tree.emptied_of_below (hwf.formed hempty)
        fun e he => ⟨hwf.ordered.sound e he, hbelow e he⟩
  | true =>
      obtain ⟨depth, root⟩ := t
      obtain rfl : depth = 0 := hwf.empty hempty
      rfl

/-- A platform on which no call fails. -/
def smoothPlatform (blockSize : ℕ) (hge : 1024 ≤ blockSize) (hle : blockSize ≤ 65536) : Platform where
  blockSize := blockSize
  blockSize_ge := hge
  blockSize_le := hle
  inodeGoal := 0
  choose := fun _ goal => .ok goal
  noread := fun _ => false
  nopath := fun _ => false
  nozero := fun _ => none
  look := fun _ => ⟨true, fun _ => false⟩

/-- **The tail of a file is removed exactly**, whatever fails, if and only if the first block to be
    removed is mapped, or nothing is to be removed at all. -/
theorem removesTail_iff (hge : 1024 ≤ blockSize) (hle : blockSize ≤ 65536)
    (hwf : t.WellFormed blockSize) (hfrm : frm < 2 ^ 32) :
    (∀ pf : Platform, pf.blockSize = blockSize → ∀ w, RemovesTail pf t frm w) ↔
      (mapOf t.extents frm ≠ none ∨ ∀ b, frm ≤ b → mapOf t.extents b = none) := by
  constructor
  · intro hall
    by_cases hmapped : mapOf t.extents frm = none
    · refine .inr fun b hb => ?_
      have htail := hall (smoothPlatform blockSize hge hle) rfl ⟨fun _ => false, [], 0⟩
      obtain ⟨error, heq, hsmooth⟩ := removeSpace_of_unmapped (smoothPlatform blockSize hge hle)
        ⟨fun _ => false, [], 0⟩ hwf hfrm hmapped
      unfold RemovesTail at htail
      rw [heq] at htail
      exact htail.tail (hsmooth ⟨rfl, fun _ => rfl⟩) b hb
    · exact .inl hmapped
  · rintro hcond pf rfl w
    by_cases hmapped : mapOf t.extents frm = none
    · have hnone := hcond.resolve_left (not_not.mpr hmapped)
      obtain ⟨error, heq, hsmooth⟩ := removeSpace_of_unmapped pf w hwf hfrm hmapped
      unfold RemovesTail
      rw [heq]
      exact .unchanged rfl (fun _ => ⟨goneFrom_emptied_of_unmapped hwf hnone, hnone⟩) hsmooth
    · exact removesTail_of_mapped hwf hfrm hmapped

/-- A file with a hole: blocks 0 to 3, and 20 to 23. -/
def holed : ExtTree := leafTree [.of 0 4 100, .of 20 4 200]

theorem holed_wellFormed (blockSize : ℕ) : holed.WellFormed blockSize where
  depth_le := by decide
  check := by decide
  formed := fun _ => ⟨by decide, List.cons_ne_nil _ _⟩
  empty := fun _ => rfl
  ordered := by decide

/-- From block 2 on the removal is exact. -/
theorem removesTail_iff_holed :
    mapOf holed.extents 2 ≠ none ∧
      ∀ pf : Platform, pf.blockSize = 4096 → ∀ w, RemovesTail pf holed 2 w :=
  ⟨by decide, (removesTail_iff (by decide) (by decide) (holed_wellFormed 4096) (by decide)).mpr
    (.inl (by decide))⟩

/-- **From a block in a hole on, nothing is removed**, and the call succeeds. -/
theorem removesTail_fails : ¬ ∀ (pf : Platform) (t : ExtTree) (frm : ℕ),
    t.WellFormed pf.blockSize → frm < 2 ^ 32 → ∀ w, RemovesTail pf t frm w := by
  intro hall
  have htail := hall (smoothPlatform 4096 (by decide) (by decide)) holed 10 (holed_wellFormed 4096)
    (by decide) ⟨fun _ => false, [], 0⟩
  obtain ⟨error, heq, hsmooth⟩ := removeSpace_of_unmapped
    (smoothPlatform 4096 (by decide) (by decide)) ⟨fun _ => false, [], 0⟩ (holed_wellFormed 4096)
    (by decide : 10 < 2 ^ 32) (by decide)
  unfold RemovesTail at htail
  rw [heq] at htail
  have hnone : mapOf holed.extents 20 = none :=
    htail.tail (hsmooth ⟨rfl, fun _ => rfl⟩) 20 (by decide)
  exact absurd hnone (by decide)

end Extents

import OpenExt4.Extents.Tree
import OpenExt4.Lib.Transitions

set_option autoImplicit false

/-! # Loops over untrusted trees

Three loops walk an extent tree by asking it what is at a logical block and stepping over that: the
preallocation, the map of a file's extents, and the zeroing of what a grow exposes. A turn is given
what the tree answers; nothing is assumed of the answers, so that they may come from any tree, and
for the preallocation from another one each time. -/

namespace Extents

open Transitions

/-! ## The turns -/

/-- What a turn of the preallocation meets: the lookup of its block, and where nothing backs that,
    the allocation of one and its insertion into the tree. -/
structure PreallocateAnswer where
  found : Except Errno Spot
  added : Except Errno Unit

/-- The logical block of a turn, `iblock + done` in 32 bits. -/
def turnBlock (iblock done : ℕ) : ℕ := (iblock + done) % 2 ^ 32

/-- The `done` behind an extent that backs the block. -/
def skipBacked (s : Spot) (at' done : ℕ) : Option ℕ :=
  match s.extent with
  | none => none
  | some ex =>
    if ex.covers at' then some ((done + sub32 ex.len (at' - ex.firstBlock)) % 2 ^ 32) else none

/-- One turn of the loop of `ext4_extent_preallocate`: the new `done`, or `none` where the loop is
    over or the function returns. -/
def preallocateTurn (iblock count done : ℕ) (a : PreallocateAnswer) : Option ℕ :=
  if count ≤ done then none
  else
    match a.found with
    | .error _ => none
    | .ok s =>
      match skipBacked s (turnBlock iblock done) done with
      | some done => some done
      | none =>
        match a.added with
        | .error _ => none
        | .ok _ => some ((done + 1) % 2 ^ 32)

/-- `ext4b_extent` -/
structure ExtentOut where
  logicalOffset : ℕ
  physicalOffset : ℕ
  length : ℕ
  isHole : Bool
  isUnwritten : Bool

structure MapState where
  lblk : ℕ
  out : List ExtentOut

/-- The first and the last block that `ext4b_map_extents` asks for. -/
def mapBounds (bsize offset length : ℕ) : ℕ × ℕ :=
  (offset / bsize % 2 ^ 32, (offset + length - 1) % 2 ^ 64 / bsize % 2 ^ 32)

/-- One turn of the loop of `ext4b_map_extents` over an extent-mapped file. -/
def mapExtentsTurn (bsize endLblk maxExtents : ℕ) (s : MapState) (found : Except Errno Spot) :
    Option MapState :=
  if endLblk < s.lblk ∨ maxExtents ≤ s.out.length then none
  else
    match found with
    | .error _ => none
    | .ok spot =>
      let b := probe spot s.lblk
      -- the gap runs to the end of the file
      if b.fblk = 0 ∧ b.run = 0 then none
      else
        let left := (sub32 endLblk s.lblk + 1) % 2 ^ 32
        let run := if left < b.run then left else b.run
        some {
          lblk := (s.lblk + run) % 2 ^ 32
          out := s.out ++ [⟨s.lblk * bsize, b.fblk * bsize, run * bsize, b.fblk = 0, b.unwritten⟩] }

/-- The loop over the blocks of a run, `left` of them from block `i` on: where `pos` is behind it,
    or `none` if a write fails. -/
def zeroRun (bsize upTo inOff : ℕ) (fails : ℕ → Bool) : ℕ → ℕ → ℕ → Option ℕ
  | 0, _, pos => some pos
  | left + 1, i, pos =>
    if pos < upTo then
      let off := if i = 0 then inOff else 0
      let n := if upTo - pos < bsize - off then upTo - pos else bsize - off
      if fails i then none else zeroRun bsize upTo inOff fails left (i + 1) (pos + n)
    else some pos

/-- What a turn of the zeroing meets: the lookup of its block, and which of its writes fail. -/
structure ZeroAnswer where
  found : Except Errno Spot
  fails : ℕ → Bool

/-- The run that a turn of the zeroing is given. -/
def exposedRun (bsize upTo pos : ℕ) (s : Spot) : Backing :=
  mapRange s (pos / bsize % 2 ^ 32) ((upTo - pos + bsize - 1) / bsize % 2 ^ 32)

/-- One turn of the loop of `zero_exposed_range` over an extent-mapped file. -/
def zeroExposedTurn (bsize upTo pos : ℕ) (a : ZeroAnswer) : Option ℕ :=
  if upTo ≤ pos then none
  else
    match a.found with
    | .error _ => none
    | .ok s =>
      let b := exposedRun bsize upTo pos s
      -- nothing after a hole can be backed by this file's allocation
      if b.fblk = 0 ∨ b.run = 0 ∨ b.unwritten then none
      else zeroRun bsize upTo (pos % bsize) a.fails b.run 0 pos

/-! ## Progress -/

/-- A loop whose turns advance just where they meet `sound`: then a run of such turns is no longer
    than its position climbs, and stays within the limit. -/
structure Climbs {σ ε : Type} (turn : σ → ε → Option σ) (inv : σ → Prop) (sound : σ → ε → Prop)
    (advances : σ → σ → Prop) (pos : σ → ℕ) (limit : ℕ) : Prop where
  turn_iff : ∀ s e t, inv s → turn s e = some t → (sound s e ↔ advances s t)
  run : ∀ n s t, inv s → Turns turn sound n s t → inv t ∧ pos s + n ≤ pos t ∧ pos t ≤ limit

theorem climbs_of_turn {σ ε : Type} {turn : σ → ε → Option σ} {inv : σ → Prop}
    {sound : σ → ε → Prop} {advances : σ → σ → Prop} {pos : σ → ℕ} {limit : ℕ}
    (hturn : ∀ s e t, inv s → turn s e = some t → (sound s e ↔ advances s t))
    (hadvance : ∀ s t, inv s → advances s t → inv t ∧ pos s < pos t)
    (hlimit : ∀ s, inv s → pos s ≤ limit) : Climbs turn inv sound advances pos limit where
  turn_iff := hturn
  run n s t hs hrun := by
    obtain ⟨ht, hle⟩ := hrun.climb
      (fun s e t hs hsound htaken => hadvance s t hs ((hturn s e t hs htaken).mp hsound)) hs
    exact ⟨ht, hle, hlimit t ht⟩

/-! ## The preallocation -/

/-- What a turn at block `b` steps over reaches the end of the block space: an extent that ends
    there, or one that is empty at block 0 and counts as ending there; else the last block. -/
def ReachesTop (s : Spot) (b : ℕ) : Prop :=
  match s.extent with
  | none => b + 1 = 2 ^ 32
  | some ex =>
    if ex.covers b then (ex.firstBlock + ex.len) % 2 ^ 32 = 0 else b + 1 = 2 ^ 32

/-- The position is inside the block space while the loop goes on. -/
def PreallocateInv (iblock count done : ℕ) : Prop :=
  done < 2 ^ 32 ∧ (iblock + done < 2 ^ 32 ∨ count ≤ done)

/-- The turn adds one block at least, and leaves the space only at the end. -/
def PreallocateAdvances (iblock count done done' : ℕ) : Prop :=
  done < done' ∧ PreallocateInv iblock count done'

/-- The end of the block space is reached only from a start behind block 0, and only as the end of
    what was asked for. -/
def PreallocateSound (iblock count done : ℕ) (a : PreallocateAnswer) : Prop :=
  ∀ s, a.found = .ok s → ReachesTop s (iblock + done) → iblock ≠ 0 ∧ iblock + count ≤ 2 ^ 32

theorem skipBacked_iff {iblock count done : ℕ} (hcount : count < 2 ^ 32) (hmore : done < count)
    (hat : iblock + done < 2 ^ 32) {s : Spot} {done' : ℕ}
    (h : skipBacked s (iblock + done) done = some done') :
    (ReachesTop s (iblock + done) → iblock ≠ 0 ∧ iblock + count ≤ 2 ^ 32) ↔
      PreallocateAdvances iblock count done done' := by
  unfold skipBacked at h
  unfold ReachesTop PreallocateAdvances PreallocateInv
  cases hex : s.extent with
  | none => simp [hex] at h
  | some ex =>
      simp only [hex] at h ⊢
      split_ifs at h ⊢ with hcovers
      rw [Option.some.injEq, Extent.rest_eq ?_ hat] at h
      · have hlen := ex.len_lt
        rcases (Extent.covers_iff hat).mp hcovers with ⟨hfirst, hzero⟩ | ⟨hle, hlt, hend⟩
        · simp only [hfirst, hzero, sub32] at h ⊢
          omega
        · simp only [sub32] at h
          omega
      · rcases (Extent.covers_iff hat).mp hcovers with ⟨hfirst, -⟩ | ⟨hle, -⟩
        · omega
        · exact hle

theorem reachesTop_of_hole {s : Spot} {b done : ℕ} (h : skipBacked s b done = none) :
    ReachesTop s b ↔ b + 1 = 2 ^ 32 := by
  unfold skipBacked at h
  unfold ReachesTop
  cases hex : s.extent with
  | none => simp
  | some ex =>
      simp only [hex] at h ⊢
      split_ifs at h ⊢ with hcovers
      rfl

theorem preallocateTurn_iff {iblock count done done' : ℕ} {a : PreallocateAnswer}
    (hcount : count < 2 ^ 32) (hinv : PreallocateInv iblock count done)
    (h : preallocateTurn iblock count done a = some done') :
    PreallocateSound iblock count done a ↔ PreallocateAdvances iblock count done done' := by
  unfold preallocateTurn at h
  split_ifs at h with hmore
  have hat : iblock + done < 2 ^ 32 := by
    rcases hinv.2 with hat | hover
    · exact hat
    · omega
  have hblock : turnBlock iblock done = iblock + done := Nat.mod_eq_of_lt hat
  unfold PreallocateSound
  split at h
  · cases h
  next s hfound =>
    simp only [hfound, Except.ok.injEq, forall_eq']
    rw [hblock] at h
    split at h
    · next d hskip =>
        cases h
        exact skipBacked_iff hcount (by omega) hat hskip
    · next hskip =>
        split at h
        · cases h
        · rw [reachesTop_of_hole hskip]
          rw [Option.some.injEq] at h
          unfold PreallocateAdvances PreallocateInv
          omega

/-! ## The map of the extents -/

/-- An empty extent at block 0 is not asked about block 0; and where the last block of the space is
    asked for, what is found ends before it, and block 0 is not asked for too. -/
def MapSound (endLblk : ℕ) (s : MapState) (found : Except Errno Spot) : Prop :=
  ∀ spot, found = .ok spot →
    (∀ ex, spot.extent = some ex → ex.firstBlock = 0 → ex.len = 0 → s.lblk ≠ 0) ∧
    (endLblk = extMaxBlocks → s.lblk ≠ 0 ∧ s.lblk + (probe spot s.lblk).run < 2 ^ 32)

theorem probe_run_eq_zero {s : Spot} {b : ℕ} (hb : b < 2 ^ 32)
    (h : ¬ ((probe s b).fblk = 0 ∧ (probe s b).run = 0)) :
    (probe s b).run = 0 ↔ ∃ ex, s.extent = some ex ∧ ex.firstBlock = 0 ∧ ex.len = 0 ∧ b = 0 := by
  unfold probe at h ⊢
  cases hex : s.extent with
  | none => simpa [hex] using h
  | some ex =>
      simp only [hex] at h ⊢
      by_cases hcovers : ex.covers b = true
      · have hlen := ex.len_lt
        simp only [if_pos hcovers, Option.some.injEq, exists_eq_left', sub32]
        rcases (Extent.covers_iff hb).mp hcovers with ⟨hfirst, hzero⟩ | ⟨hle, hlt, hend⟩
        · simp only [hfirst, hzero, true_and]
          omega
        · omega
      · simp only [if_neg hcovers, true_and] at h ⊢
        have hnot : ∀ ex', some ex = some ex' → ex'.firstBlock = 0 → ex'.len = 0 → b ≠ 0 := by
          intro ex' hex' hfirst hzero
          obtain rfl := Option.some.inj hex'
          exact absurd ((Extent.covers_iff hb).mpr (.inl ⟨hfirst, hzero⟩)) hcovers
        refine ⟨fun hzero => absurd hzero h, ?_⟩
        rintro ⟨ex', hex', hfirst, hzero, hat⟩
        exact absurd hat (hnot ex' hex' hfirst hzero)

/-- A step clamped to what is left goes forward, but for one that reaches the end of the space. -/
theorem clamped_iff {lblk endLblk run : ℕ} (hle : lblk ≤ endLblk) (hend : endLblk < 2 ^ 32) :
    (run ≠ 0 ∧ (endLblk = extMaxBlocks → lblk ≠ 0 ∧ lblk + run < 2 ^ 32)) ↔
      lblk < (lblk + if (sub32 endLblk lblk + 1) % 2 ^ 32 < run then (sub32 endLblk lblk + 1) % 2 ^ 32
        else run) % 2 ^ 32 := by
  have hleft : sub32 endLblk lblk = endLblk - lblk := by
    unfold sub32
    omega
  rw [hleft]
  unfold extMaxBlocks
  split_ifs <;> omega

theorem mapExtentsTurn_iff {bsize endLblk maxExtents : ℕ} {s t : MapState}
    {found : Except Errno Spot} (hend : endLblk < 2 ^ 32) (hinv : s.lblk < 2 ^ 32)
    (h : mapExtentsTurn bsize endLblk maxExtents s found = some t) :
    MapSound endLblk s found ↔ s.lblk < t.lblk := by
  unfold mapExtentsTurn at h
  split_ifs at h with hover
  unfold MapSound
  split at h
  · cases h
  next spot =>
    simp only [Except.ok.injEq, forall_eq']
    dsimp only at h
    by_cases hgap : (probe spot s.lblk).fblk = 0 ∧ (probe spot s.lblk).run = 0
    · rw [if_pos hgap] at h
      cases h
    rw [if_neg hgap, Option.some.injEq] at h
    have hempty : (∀ ex, spot.extent = some ex → ex.firstBlock = 0 → ex.len = 0 → s.lblk ≠ 0) ↔
        (probe spot s.lblk).run ≠ 0 := by
      refine Iff.trans ?_ (probe_run_eq_zero hinv hgap).not.symm
      simp
    rw [hempty, clamped_iff (by omega) hend, ← h]

/-! ## The zeroing -/

/-- The position is a block of the space, or there is nothing more to zero. -/
def ZeroInv (bsize upTo pos : ℕ) : Prop := pos ≤ upTo ∧ (pos / bsize < 2 ^ 32 ∨ pos = upTo)

/-- The turn zeroes the rest of its block at least, or all that is left, and leaves the space only at
    the end. -/
def ZeroAdvances (bsize upTo pos pos' : ℕ) : Prop :=
  pos < pos' ∧ ZeroInv bsize upTo pos' ∧ (pos' = upTo ∨ pos / bsize < pos' / bsize)

/-- The run that is zeroed ends inside the block space, unless it is the last. -/
def ZeroSound (bsize upTo pos : ℕ) (a : ZeroAnswer) : Prop :=
  ∀ s, a.found = .ok s → pos / bsize + (exposedRun bsize upTo pos s).run < 2 ^ 32 ∨
    upTo ≤ (pos / bsize + (exposedRun bsize upTo pos s).run) * bsize

/-- The writes of whole blocks lead to the end of the run, or to the end of what is to be zeroed. -/
theorem zeroRun_aligned {bsize upTo inOff : ℕ} {fails : ℕ → Bool} {left i lblk pos : ℕ}
    (hpos : zeroRun bsize upTo inOff fails left (i + 1) (min upTo (lblk * bsize)) = some pos) :
    pos = min upTo ((lblk + left) * bsize) := by
  induction left generalizing i lblk with
  | zero => exact (Option.some.inj hpos).symm
  | succ left ih =>
      have hnext : (lblk + 1) * bsize = lblk * bsize + bsize := Nat.succ_mul _ _
      have hlast : (lblk + (left + 1)) * bsize = (lblk + 1) * bsize + left * bsize := by
        rw [← Nat.add_mul]
        congr 1
        omega
      rw [zeroRun] at hpos
      by_cases hmore : min upTo (lblk * bsize) < upTo
      · rw [if_pos hmore] at hpos
        dsimp only at hpos
        by_cases hfails : fails (i + 1) = true
        · rw [if_pos hfails] at hpos
          cases hpos
        · rw [if_neg hfails, if_neg (Nat.succ_ne_zero i), Nat.sub_zero] at hpos
          have hstep : min upTo (lblk * bsize) + (if upTo - min upTo (lblk * bsize) < bsize
              then upTo - min upTo (lblk * bsize) else bsize) = min upTo ((lblk + 1) * bsize) := by
            split_ifs <;> omega
          rw [hstep] at hpos
          rw [ih hpos]
          congr 2
          omega
      · rw [if_neg hmore, Option.some.injEq] at hpos
        omega

/-- The writes of a run lead from a position in its first block to the same. -/
theorem zeroRun_eq {bsize upTo pos pos' left : ℕ} {fails : ℕ → Bool} (hbsize : 0 < bsize)
    (hmore : pos < upTo) (hleft : left ≠ 0)
    (h : zeroRun bsize upTo (pos % bsize) fails left 0 pos = some pos') :
    pos' = min upTo ((pos / bsize + left) * bsize) := by
  obtain ⟨n, rfl⟩ := Nat.exists_eq_succ_of_ne_zero hleft
  have hsplit := Nat.div_add_mod' pos bsize
  have hmod := Nat.mod_lt pos hbsize
  have hnext : (pos / bsize + 1) * bsize = pos / bsize * bsize + bsize := Nat.succ_mul _ _
  rw [zeroRun, if_pos hmore] at h
  dsimp only at h
  by_cases hfails : fails 0 = true
  · rw [if_pos hfails] at h
    cases h
  · rw [if_neg hfails, if_pos rfl] at h
    have hstep : pos + (if upTo - pos < bsize - pos % bsize then upTo - pos
        else bsize - pos % bsize) = min upTo ((pos / bsize + 1) * bsize) := by
      split_ifs <;> omega
    rw [hstep] at h
    rw [zeroRun_aligned h]
    congr 2
    omega

theorem zeroExposedTurn_iff {bsize upTo pos pos' : ℕ} {a : ZeroAnswer} (hbsize : 0 < bsize)
    (hinv : ZeroInv bsize upTo pos) (h : zeroExposedTurn bsize upTo pos a = some pos') :
    ZeroSound bsize upTo pos a ↔ ZeroAdvances bsize upTo pos pos' := by
  unfold zeroExposedTurn at h
  split_ifs at h with hmore
  unfold ZeroSound
  split at h
  · cases h
  next s hfound =>
    simp only [hfound, Except.ok.injEq, forall_eq']
    dsimp only at h
    split_ifs at h with hstop
    have hrun : (exposedRun bsize upTo pos s).run ≠ 0 := fun hzero => hstop (.inr (.inl hzero))
    generalize (exposedRun bsize upTo pos s).run = run at *
    have hpos' := zeroRun_eq hbsize (by omega) hrun h
    have hnext : pos < (pos / bsize + 1) * bsize := by
      rw [Nat.mul_comm]
      exact Nat.lt_mul_div_succ pos hbsize
    have hover : (pos / bsize + 1) * bsize ≤ (pos / bsize + run) * bsize :=
      Nat.mul_le_mul_right bsize (by omega)
    unfold ZeroAdvances ZeroInv
    by_cases hend : upTo ≤ (pos / bsize + run) * bsize
    · obtain rfl : pos' = upTo := by omega
      exact ⟨fun _ => ⟨by omega, ⟨le_rfl, .inr rfl⟩, .inl rfl⟩, fun _ => .inr hend⟩
    · obtain rfl : pos' = (pos / bsize + run) * bsize := by omega
      simp only [hend, or_false, Nat.mul_div_cancel _ hbsize]
      omega

/-! ## All three -/

/-- The turn leads to a later block. -/
def MapAdvances (s t : MapState) : Prop := s.lblk < t.lblk ∧ t.lblk < 2 ^ 32

theorem mapExtentsTurn_lt {bsize endLblk maxExtents : ℕ} {s t : MapState}
    {found : Except Errno Spot} (h : mapExtentsTurn bsize endLblk maxExtents s found = some t) :
    t.lblk < 2 ^ 32 := by
  unfold mapExtentsTurn at h
  split_ifs at h
  split at h
  · cases h
  · dsimp only at h
    split_ifs at h
    all_goals
      cases h
      exact Nat.mod_lt _ (by decide)

theorem preallocate_climbs {iblock count : ℕ} (hcount : count < 2 ^ 32) :
    Climbs (preallocateTurn iblock count) (PreallocateInv iblock count)
      (PreallocateSound iblock count) (PreallocateAdvances iblock count) id (2 ^ 32) :=
  climbs_of_turn (fun _ _ _ hinv h => preallocateTurn_iff hcount hinv h)
    (fun _ _ _ hadvance => ⟨hadvance.2, hadvance.1⟩) (fun _ hinv => hinv.1.le)

theorem mapExtents_climbs {bsize endLblk maxExtents : ℕ} (hend : endLblk < 2 ^ 32) :
    Climbs (mapExtentsTurn bsize endLblk maxExtents) (·.lblk < 2 ^ 32) (MapSound endLblk)
      MapAdvances (·.lblk) (2 ^ 32) := by
  refine climbs_of_turn (fun s e t hinv h => ?_) (fun _ _ _ hadvance => hadvance.symm)
    (fun _ hinv => hinv.le)
  rw [mapExtentsTurn_iff hend hinv h]
  exact ⟨fun hlt => ⟨hlt, mapExtentsTurn_lt h⟩, fun hadvance => hadvance.1⟩

theorem zeroExposed_climbs {bsize upTo : ℕ} (hbsize : 0 < bsize) :
    Climbs (zeroExposedTurn bsize upTo) (ZeroInv bsize upTo) (ZeroSound bsize upTo)
      (ZeroAdvances bsize upTo) id upTo :=
  climbs_of_turn (fun _ _ _ hinv h => zeroExposedTurn_iff hbsize hinv h)
    (fun _ _ _ hadvance => ⟨hadvance.2.1, hadvance.1⟩) (fun _ hinv => hinv.1)

/-- **The walks advance just where their turns are sound**, whatever trees answer them; and a run of
    sound turns ends. -/
theorem walks_climb (iblock bsize maxExtents upTo : ℕ) {count endLblk : ℕ} (hcount : count < 2 ^ 32)
    (hend : endLblk < 2 ^ 32) (hbsize : 0 < bsize) :
    Climbs (preallocateTurn iblock count) (PreallocateInv iblock count)
      (PreallocateSound iblock count) (PreallocateAdvances iblock count) id (2 ^ 32) ∧
    Climbs (mapExtentsTurn bsize endLblk maxExtents) (·.lblk < 2 ^ 32) (MapSound endLblk)
      MapAdvances (·.lblk) (2 ^ 32) ∧
    Climbs (zeroExposedTurn bsize upTo) (ZeroInv bsize upTo) (ZeroSound bsize upTo)
      (ZeroAdvances bsize upTo) id upTo :=
  ⟨preallocate_climbs hcount, mapExtents_climbs hend, zeroExposed_climbs hbsize⟩

/-- What a tree answers a turn of the preallocation, when all calls succeed. -/
def smoothAnswer (t : ExtTree) (iblock done : ℕ) : PreallocateAnswer where
  found := findSpot ⟨true, fun _ => false⟩ 4096 t (turnBlock iblock done)
  added := .ok ()

/-- Blocks 2 to 5 of a file that has blocks 3 and 4: the three turns take it to the end. -/
theorem walks_climb_sound : ∃ done, Turns (preallocateTurn 2 4) (PreallocateSound 2 4) 3 0 done ∧
    0 + 3 ≤ done := by
  have hsound (done : ℕ) (hdone : done ∈ [0, 1, 3]) :
      PreallocateSound 2 4 done (smoothAnswer (leafTree [.of 3 2 100]) 2 done) := by
    intro s hs htop
    have hspot : s = ⟨some (.of 3 2 100), extMaxBlocks⟩ := by
      simp only [List.mem_cons, List.not_mem_nil, or_false] at hdone
      rcases hdone with rfl | rfl | rfl <;> exact (Except.ok.inj hs).symm
    exact ⟨by decide, by decide⟩
  have hturns : Turns (preallocateTurn 2 4) (PreallocateSound 2 4) 3 0 4 :=
    .event _ (.event _ (.event _ (.refl 0) (hsound 0 (by decide)) (by decide : _ = some 1))
      (hsound 1 (by decide)) (by decide : _ = some 3)) (hsound 3 (by decide)) (by decide)
  have hclimbs := (walks_climb 2 1 0 0 (by decide : 4 < 2 ^ 32) (by decide : 0 < 2 ^ 32)
    (by decide : 0 < 1)).1
  exact ⟨4, hturns, (hclimbs.run 3 0 4 ⟨by decide, .inl (by decide)⟩ hturns).2.1⟩

/-- **An empty extent at block 0 stops the preallocation for good**: the tree passes the check, and
    there are as many turns as one likes. -/
theorem preallocate_stalls : ¬ ∀ t : ExtTree, t.depth ≤ ext4MaxExtentDepth →
    t.root.check spaceRoot t.depth = true → ∃ bound, ∀ n done,
      Turns (preallocateTurn 0 1) (fun done a => a = smoothAnswer t 0 done) n 0 done →
        n ≤ bound := by
  intro hall
  obtain ⟨bound, hbound⟩ := hall (leafTree [.of 0 0 100]) (by decide) (by decide)
  have hstay : preallocateTurn 0 1 0 (smoothAnswer (leafTree [.of 0 0 100]) 0 0) = some 0 := by
    decide
  have hturns (n : ℕ) : Turns (preallocateTurn 0 1)
      (fun done a => a = smoothAnswer (leafTree [.of 0 0 100]) 0 done) n 0 0 := by
    induction n with
    | zero => exact .refl 0
    | succ n ih => exact .event _ ih rfl hstay
  have := hbound (bound + 1) 0 (hturns _)
  omega

end Extents

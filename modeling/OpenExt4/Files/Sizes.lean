import OpenExt4.Files.Contents
import OpenExt4.Files.Write

set_option autoImplicit false

/-! # Where the loop of a write is

The positions and counts of the loop, and the size of the file: an append makes it grow, and what
the turn of the append writes lies past the old end. -/

namespace Files

open ByteDevice

variable {bs : BlockSize} {buf : ℕ → UInt8}

/-! ## The parts of a turn -/

/-- The loop with other blocks. -/
def Wr.setDisk (w : Wr) (d : Disk) (haveBlocks : ℕ) : Wr :=
  { w with disk := d, haveBlocks := haveBlocks }

theorem flushPending_ok {l : Landing Errno} {w w' : Wr} (h : flushPending bs buf l w = .ok w') :
    ∃ dev, w' = { w with
      disk := { w.disk with dev := dev }, runBlocks := 0, runBytes := 0,
      written := w.written + w.runBytes } := by
  simp only [flushPending, flushRun] at h
  split at h
  · cases h
  · next v hv =>
      split at hv
      · next hnone =>
          simp only [Prod.mk.injEq, true_and] at hv
          subst hv
          refine ⟨w.disk.dev, ?_⟩
          rw [← Except.ok.inj h, ← hnone]
      · simp only [Prod.mk.injEq] at hv
        obtain ⟨-, rfl⟩ := hv
        exact ⟨_, (Except.ok.inj h).symm⟩

theorem getBlocks_size {d d' : Disk} {o : Blocks} {iblock max fblk n : ℕ}
    (h : getBlocks bs d o iblock max = .ok (fblk, n, d')) : d'.file.size = d.file.size := by
  simp only [getBlocks] at h
  split at h
  · split at h
    · split at h <;> cases h
    · split at h <;>
        simp only [Except.ok.injEq, Prod.mk.injEq] at h <;> obtain ⟨-, -, rfl⟩ := h <;> rfl
  · split at h
    · cases h
    · split at h
      · cases h
      · simp only [Except.ok.injEq, Prod.mk.injEq] at h
        obtain ⟨-, -, rfl⟩ := h
        rfl

theorem init_size {d d' : Disk} {o : Blocks} {iblock fblk : ℕ}
    (h : initInodeDblkIdx bs d o iblock = .ok (fblk, d')) : d'.file.size = d.file.size := by
  simp only [initInodeDblkIdx] at h
  split at h
  · simp only [Except.ok.injEq, Prod.mk.injEq] at h
    rw [h.2]
  · split at h
    · split at h
      · cases h
      · next fblk' n d'' hget =>
          simp only [Except.ok.injEq, Prod.mk.injEq] at h
          rw [← h.2, getBlocks_size hget]
    · split at h <;> simp only [Except.ok.injEq, Prod.mk.injEq, reduceCtorEq] at h <;> rw [h.2]

/-- The walk past the end gets there, and not beyond what the write needs. -/
theorem appendTo_blocks {lblk fblk p : ℕ} {os : List Blocks} {w w' : Wr}
    (hleft : 0 < w.remaining) (hroom : lblk + blocksFor bs w.remaining < 2 ^ 32)
    (hfits : w.haveBlocks < 2 ^ 32) (h : appendTo bs lblk os fblk w = .ok (p, w')) :
    ∃ d n, w' = w.setDisk d n ∧ w.haveBlocks ≤ n ∧ lblk < n ∧ n < 2 ^ 32 := by
  induction os generalizing fblk w with
  | nil =>
      simp only [appendTo] at h
      split at h
      · next hlt =>
          simp only [Except.ok.injEq, Prod.mk.injEq] at h
          exact ⟨w.disk, w.haveBlocks, h.2.symm, Nat.le_refl _, hlt, hfits⟩
      · cases h
  | cons o os ih =>
      simp only [appendTo] at h
      split at h
      · next hlt =>
          simp only [Except.ok.injEq, Prod.mk.injEq] at h
          exact ⟨w.disk, w.haveBlocks, h.2.symm, Nat.le_refl _, hlt, hfits⟩
      · next hle =>
          split at h
          · cases h
          · next fblk' got d happend =>
              have hpos : 0 < blocksFor bs w.remaining := by
                by_contra hzero
                have := le_blocksFor_mul bs w.remaining
                simp only [Nat.not_lt, Nat.le_zero] at hzero
                rw [hzero, Nat.zero_mul] at this
                omega
              generalize hwant : (if w.haveBlocks = lblk
                then max 1 (min (blocksFor bs w.remaining) (2 ^ 32 - 1)) else 1) = want at happend
              have hwant' : 0 < want ∧ w.haveBlocks + want < 2 ^ 32 := by
                rw [← hwant]
                split <;> omega
              obtain ⟨hgot, hmax⟩ := append_count hwant'.1 happend
              have hsum : u32 (w.haveBlocks + got) = w.haveBlocks + got := u32_of_lt (by omega)
              rw [hsum] at h
              obtain ⟨d', n, hw', hn⟩ := ih (w := w.setDisk d (w.haveBlocks + got)) hleft hroom
                (by simp only [Wr.setDisk]; omega) h
              refine ⟨d', n, hw', ?_, hn.2⟩
              have := hn.1
              simp only [Wr.setDisk] at this
              omega

/-! ## Positions -/

/-- Where the loop is in the file and in the data, that `haveBlocks` does not overflow, and that the
    size has grown only past its old end `old`. -/
structure Track (bs : BlockSize) (offset count old : ℕ) (w : Wr) : Prop where
  pos : w.pos = offset + w.src
  left : w.src + w.remaining = count
  counted : w.written + w.runBytes = w.src
  blocks : blocksFor bs old ≤ w.haveBlocks
  fits : w.haveBlocks < 2 ^ 32
  size : w.disk.file.size = old ∨ old < w.pos

/-- The write ends before the last block that 32 bits number. -/
def Numbered (bs : BlockSize) (offset count old : ℕ) : Prop :=
  offset + count ≤ (2 ^ 32 - 1) * bs.val ∧ blocksFor bs old < 2 ^ 32

section Positions

variable {offset count old : ℕ} {w w' : Wr}

theorem Wr.chunk_le (w : Wr) : w.chunk bs ≤ w.remaining := Nat.min_le_right _ _

theorem Wr.inOff_lt (w : Wr) (bs : BlockSize) : w.inOff bs < bs.val := Nat.mod_lt _ bs.pos

theorem Wr.chunk_le_block (w : Wr) (bs : BlockSize) : w.inOff bs + w.chunk bs ≤ bs.val := by
  have := w.inOff_lt bs
  simp only [Wr.chunk]
  omega

theorem Wr.chunk_pos (hleft : 0 < w.remaining) : 0 < w.chunk bs := by
  have := w.inOff_lt bs
  simp only [Wr.chunk]
  omega

/-- The block of the turn, and the blocks the rest of the write takes, have numbers of 32 bits. -/
theorem Track.numbered (h : Track bs offset count old w) (hnum : Numbered bs offset count old) :
    w.pos / bs.val + blocksFor bs w.remaining < 2 ^ 32 := by
  have hpos := h.pos
  have hleft := h.left
  have hend := hnum.1
  have hdown := Nat.div_mul_le_self w.pos bs.val
  have hup : blocksFor bs w.remaining * bs.val ≤ w.remaining + bs.val - 1 :=
    Nat.div_mul_le_self ..
  have hbs := bs.pos
  have hlt : (w.pos / bs.val + blocksFor bs w.remaining) * bs.val < 2 ^ 32 * bs.val := by
    rw [Nat.add_mul]
    omega
  exact Nat.lt_of_mul_lt_mul_right hlt

theorem Track.lblk (h : Track bs offset count old w) (hnum : Numbered bs offset count old) :
    w.lblk bs = w.pos / bs.val :=
  u32_of_lt (Nat.lt_of_le_of_lt (Nat.le_add_right _ _) (h.numbered hnum))

theorem Track.pos_eq (h : Track bs offset count old w) (hnum : Numbered bs offset count old) :
    w.lblk bs * bs.val + w.inOff bs = w.pos := by
  rw [h.lblk hnum, Wr.inOff, Nat.mul_comm, Nat.div_add_mod]

/-- A block behind the ones the file has starts past its old end. -/
theorem Track.past_old (h : Track bs offset count old w) (hnum : Numbered bs offset count old)
    (hle : w.haveBlocks ≤ w.lblk bs) : old ≤ w.pos := by
  have hold := le_blocksFor_mul bs old
  have hblocks := Nat.mul_le_mul_right bs.val (h.blocks.trans hle)
  have := h.pos_eq hnum
  omega

/-- The turn has taken `n` bytes, and has not gone on yet. -/
structure Took (n : ℕ) (w w' : Wr) : Prop where
  pos : w'.pos = w.pos
  src : w'.src = w.src
  remaining : w'.remaining = w.remaining
  counted : w'.written + w'.runBytes = w.written + w.runBytes + n
  blocks : w.haveBlocks ≤ w'.haveBlocks
  fits : w'.haveBlocks < 2 ^ 32

theorem Track.advance (h : Track bs offset count old w) {n : ℕ} (htook : Took n w w')
    (hn : 0 < n) (hle : n ≤ w.remaining)
    (hsize : w'.disk.file.size = w.disk.file.size ∨ old ≤ w.pos) :
    Track bs offset count old (w'.advance n) where
  pos := by simp only [Wr.advance, htook.pos, htook.src, h.pos, Nat.add_assoc]
  left := by
    have := h.left
    simp only [Wr.advance, htook.src, htook.remaining]
    omega
  counted := by simp only [Wr.advance, htook.counted, htook.src, h.counted]
  blocks := h.blocks.trans htook.blocks
  fits := htook.fits
  size := by
    simp only [Wr.advance, htook.pos]
    rcases hsize with hsame | hpast
    · rw [hsame]
      exact h.size.imp_right fun hlt => by omega
    · exact .inr (by omega)

theorem queueBlock_took {t : Turn} {fblk : ℕ} (hfits : w.haveBlocks < 2 ^ 32)
    (h : queueBlock bs buf t w fblk = .ok w') :
    Took bs.val w w' ∧ w'.disk.file = w.disk.file := by
  simp only [queueBlock] at h
  split at h
  · rw [← Except.ok.inj h]
    exact ⟨⟨rfl, rfl, rfl, (Nat.add_assoc _ _ _).symm, Nat.le_refl _, hfits⟩, rfl⟩
  · split at h
    · cases h
    · next w₁ hflush =>
        obtain ⟨dev, rfl⟩ := flushPending_ok hflush
        rw [← Except.ok.inj h]
        exact ⟨⟨rfl, rfl, rfl, rfl, Nat.le_refl _, hfits⟩, rfl⟩

theorem markWritten_ok {f f' : File} {fails : Option Errno} {lblk n : ℕ}
    (h : markWritten f fails lblk n = (none, f')) : f' = f.markRun lblk n := by
  simp only [markWritten] at h
  split at h
  · simp at h
  · simpa using h.symm

theorem writePartial_took {t : Turn} {lblk fblk inOff chunk : ℕ} {tail : Bool}
    (hfits : w.haveBlocks < 2 ^ 32)
    (h : writePartial bs buf t w lblk fblk inOff chunk tail = .ok w') :
    Took chunk w w' ∧ w'.disk.file.size = w.disk.file.size ∧
      w'.disk.file.extents = w.disk.file.extents := by
  simp only [writePartial] at h
  split at h
  · cases h
  · next w₁ hflush =>
      obtain ⟨dev, rfl⟩ := flushPending_ok hflush
      have hcount : ∀ n : ℕ, w.written + w.runBytes + n + 0 = w.written + w.runBytes + n :=
        fun n => Nat.add_zero _
      split at h
      · split at h
        · cases h
        · split at h
          · cases h
          · split at h
            · cases h
            · next f hmark =>
                rw [← Except.ok.inj h]
                refine ⟨⟨rfl, rfl, rfl, hcount _, Nat.le_refl _, hfits⟩, ?_⟩
                rw [markWritten_ok hmark]
                exact ⟨rfl, rfl⟩
      · split at h
        · cases h
        · rw [← Except.ok.inj h]
          exact ⟨⟨rfl, rfl, rfl, hcount _, Nat.le_refl _, hfits⟩, rfl, rfl⟩

theorem locate_ok {t : Turn} {lblk p : ℕ} (hleft : 0 < w.remaining)
    (hroom : lblk + blocksFor bs w.remaining < 2 ^ 32) (hfits : w.haveBlocks < 2 ^ 32)
    (h : locate bs t w lblk = .ok (p, w')) :
    ∃ d n, w' = w.setDisk d n ∧ w.haveBlocks ≤ n ∧ n < 2 ^ 32 ∧
      (d.file.size = w.disk.file.size ∨ w.haveBlocks ≤ lblk) ∧
      (pastEnd t w lblk = none → lblk < n) := by
  simp only [locate] at h
  split at h
  · next m hpast =>
      simp only [Except.ok.injEq, Prod.mk.injEq] at h
      exact ⟨w.disk, w.haveBlocks, h.2.symm, Nat.le_refl _, hfits, .inl rfl,
        fun hnone => by rw [hpast] at hnone; cases hnone⟩
  · split at h
    · next hlt =>
      split at h
      · cases h
      · next fblk d hinit =>
          simp only [Except.ok.injEq, Prod.mk.injEq] at h
          exact ⟨d, w.haveBlocks, h.2.symm, Nat.le_refl _, hfits, .inl (init_size hinit),
            fun _ => hlt⟩
    · next hpast =>
        obtain ⟨d, n, hw', hle, hgets, hlt⟩ := appendTo_blocks hleft hroom hfits h
        exact ⟨d, n, hw', hle, hlt, .inr (Nat.le_of_not_lt hpast), fun _ => hgets⟩

/-! ## A turn -/

/-- The range that a turn writes at once: whole blocks, no more than what is left. -/
theorem fastRange_some {t : Turn} {m : Mapping} {n : ℕ} (h : fastRange bs t w = some (m, n)) :
    w.inOff bs = 0 ∧ 0 < n ∧ n * bs.val ≤ w.remaining ∧ n * bs.val < 2 ^ 32 ∧
      w.disk.file.extents = true ∧ m.unwritten = true ∧
      ∀ i < n, w.disk.file.map (w.lblk bs + i) = some ⟨m.fblk + i, true⟩ := by
  simp only [fastRange] at h
  split at h
  · next hwhole =>
      rw [Option.filter_eq_some_iff] at h
      obtain ⟨hrange, hcond⟩ := h
      simp only [Bool.and_eq_true, bne_iff_ne, ne_eq] at hcond
      simp only [mapRange] at hrange
      split at hrange
      · cases hrange
      · next hext =>
          split at hrange
          · next rest m' _ _ =>
              split at hrange
              · simp only [Option.some.injEq, Prod.mk.injEq] at hrange
                obtain ⟨rfl, hrun⟩ := hrange
                generalize hmax : min (u32 (w.remaining / bs.val)) (extentLen rest) = max at hrun
                have hn := runOn_le w.disk.file.map max (w.lblk bs) m'
                rw [hrun] at hn
                have hle : n ≤ w.remaining / bs.val :=
                  (hn.trans (hmax ▸ Nat.min_le_left _ _)).trans (Nat.mod_le _ _)
                have hshort : n ≤ 2 ^ 15 :=
                  (hn.trans (hmax ▸ Nat.min_le_right _ _)).trans (Nat.min_le_right _ _)
                refine ⟨hwhole.1, by omega, ?_, ?_, by simpa using hext, hcond.1, fun i hi => ?_⟩
                · exact (Nat.mul_le_mul_right _ hle).trans (Nat.div_mul_le_self _ _)
                · calc n * bs.val ≤ 2 ^ 15 * 65536 := Nat.mul_le_mul hshort bs.le
                    _ < 2 ^ 32 := by decide
                · have := map_of_lt_runOn (hrun.symm ▸ hi)
                  rwa [hcond.1] at this
              · cases hrange
          · cases hrange
  · cases h

theorem fastTurn_took {t : Turn} {lblk n : ℕ} {m : Mapping} (hlen : n * bs.val < 2 ^ 32)
    (hfits : w.haveBlocks < 2 ^ 32) (h : fastTurn bs buf t w lblk m n = .ok w') :
    ∃ w₁, w' = w₁.advance (n * bs.val) ∧ Took (n * bs.val) w w₁ ∧
      w₁.disk.file.size = w.disk.file.size ∧ w₁.disk.file.extents = w.disk.file.extents := by
  simp only [fastTurn] at h
  split at h
  · cases h
  · next w₁ hflush =>
      obtain ⟨dev, rfl⟩ := flushPending_ok hflush
      rw [u32_of_lt hlen] at h
      split at h
      · cases h
      · split at h
        · cases h
        · next f hmark =>
            refine ⟨_, (Except.ok.inj h).symm,
              ⟨rfl, rfl, rfl, Nat.add_zero _, ?_, ?_⟩, ?_⟩
            · dsimp only
              split <;> omega
            · dsimp only
              split
              · exact Nat.mod_lt _ (by decide)
              · exact hfits
            · rw [markWritten_ok hmark]
              exact ⟨rfl, rfl⟩

theorem pastEnd_pointers {t : Turn} {lblk : ℕ} (h : w.disk.file.extents = false) :
    pastEnd t w lblk = none := by
  simp [pastEnd, mapRange, h]

theorem blockTurn_took {t : Turn} (h : Track bs offset count old w)
    (hnum : Numbered bs offset count old) (hleft : 0 < w.remaining)
    (hturn : blockTurn bs buf t w = .ok w') :
    ∃ w₁, w' = w₁.advance (w.chunk bs) ∧ Took (w.chunk bs) w w₁ ∧
      (w₁.disk.file.size = w.disk.file.size ∨ old ≤ w.pos) ∧
      (w.disk.file.extents = false → w.lblk bs < w₁.haveBlocks) := by
  simp only [blockTurn] at hturn
  split at hturn
  · cases hturn
  · next fblk w₁ hlocate =>
      have hroom := h.numbered hnum
      rw [← h.lblk hnum] at hroom
      obtain ⟨d, n, rfl, hle, hlt, hsize, hgets⟩ := locate_ok hleft hroom h.fits hlocate
      have hsize' : d.file.size = w.disk.file.size ∨ old ≤ w.pos :=
        hsize.imp_right fun hpast => h.past_old hnum hpast
      split at hturn
      · cases hturn
      · split at hturn
        · cases hturn
        · next w₂ hdone =>
            refine ⟨w₂, (Except.ok.inj hturn).symm, ?_⟩
            split at hdone
            · next hwhole =>
                obtain ⟨htook, hfile⟩ := queueBlock_took (w := w.setDisk d n) hlt hdone
                rw [hwhole.2]
                refine ⟨⟨htook.pos, htook.src, htook.remaining, htook.counted,
                  hle.trans htook.blocks, htook.fits⟩, ?_, fun hext =>
                    Nat.lt_of_lt_of_le (hgets (pastEnd_pointers hext)) htook.blocks⟩
                rw [hfile]
                exact hsize'
            · obtain ⟨htook, hfile⟩ := writePartial_took (w := w.setDisk d n) hlt hdone
              refine ⟨⟨htook.pos, htook.src, htook.remaining, htook.counted,
                hle.trans htook.blocks, htook.fits⟩, ?_, fun hext =>
                  Nat.lt_of_lt_of_le (hgets (pastEnd_pointers hext)) htook.blocks⟩
              rw [hfile.1]
              exact hsize'

/-- A turn that goes on keeps track. -/
theorem Track.step {t : Turn} (h : Track bs offset count old w)
    (hnum : Numbered bs offset count old) (hleft : 0 < w.remaining)
    (hturn : turn bs buf t w = .ok w') : Track bs offset count old w' := by
  simp only [turn] at hturn
  split at hturn
  · next m n hfast =>
      obtain ⟨-, hn, hle, hlen, -⟩ := fastRange_some hfast
      obtain ⟨w₁, rfl, htook, hsize, -⟩ := fastTurn_took hlen h.fits hturn
      exact h.advance htook (Nat.mul_pos hn bs.pos) hle (.inl hsize)
  · obtain ⟨w₁, rfl, htook, hsize, -⟩ := blockTurn_took h hnum hleft hturn
    exact h.advance htook (w.chunk_pos hleft) (w.chunk_le) hsize

/-- A loop that does not fail keeps track, and has nothing left. -/
theorem Track.loop {ts : List Turn} (h : Track bs offset count old w)
    (hnum : Numbered bs offset count old) (hloop : writeLoop bs buf ts w = (none, w')) :
    Track bs offset count old w' ∧ w'.remaining = 0 := by
  induction ts generalizing w with
  | nil =>
      simp only [writeLoop] at hloop
      split at hloop
      · next hdone =>
          obtain rfl : w = w' := by simpa using hloop
          exact ⟨h, hdone⟩
      · simp at hloop
  | cons t ts ih =>
      simp only [writeLoop] at hloop
      split at hloop
      · next hdone =>
          obtain rfl : w = w' := by simpa using hloop
          exact ⟨h, hdone⟩
      · next hleft =>
          split at hloop
          · simp at hloop
          · next w₁ hturn => exact ih (h.step hnum (Nat.pos_of_ne_zero hleft) hturn) hloop

end Positions

/-! ## The size behind the loop -/

/-- The size of a file after a write: as far as the bytes reported reach, if they reach past the old
    end. -/
def SizeLaw (old offset written size : ℕ) : Prop :=
  size = if 0 < written then max old (offset + written) else old

/-- The loop, or its last run, fails when an append has let the file grow and no byte behind the old
    end is counted yet. -/
def CutShort (bs : BlockSize) (buf : ℕ → UInt8) (a : Answers) (d : Disk) (offset count : ℕ) : Prop :=
  let out := writeRuns bs buf a d offset count
  out.1 ≠ none ∧ out.2.disk.file.size ≠ d.file.size ∧
    ¬ (0 < out.2.written ∧ d.file.size < offset + out.2.written)

/-- Where nothing fails, everything is written. -/
theorem writeRuns_all (buf : ℕ → UInt8) (a : Answers) {d : Disk} {offset count : ℕ}
    (hnum : Numbered bs offset count d.file.size)
    (hok : (writeRuns bs buf a d offset count).1 = none) :
    (writeRuns bs buf a d offset count).2.written = count ∧
      ((writeRuns bs buf a d offset count).2.disk.file.size = d.file.size ∨
        d.file.size < offset + count) := by
  simp only [writeRuns, lastRun] at hok ⊢
  generalize hloop : writeLoop bs buf a.turns _ = out at hok ⊢
  obtain ⟨r, w⟩ := out
  dsimp only at hok ⊢
  cases hflush : flushRun bs buf a.last w with
  | mk e w' =>
      rw [hflush] at hok
      cases e with
      | some e =>
          dsimp only at hok
          split at hok
          · cases hok
          · next hr => exact absurd hok hr
      | none =>
          dsimp only at hok ⊢
          subst hok
          have hstart : Track bs offset count d.file.size
              ⟨d, u32 (blocksFor bs d.file.size), offset, count, 0, 0, 0, 0, 0, 0⟩ :=
            ⟨rfl, Nat.zero_add _, rfl, (u32_of_lt hnum.2).ge, Nat.mod_lt _ (by decide), .inl rfl⟩
          obtain ⟨htrack, hdone⟩ := hstart.loop hnum hloop
          have hflushed : flushPending bs buf a.last w =
              .ok { w' with written := w'.written + w'.runBytes, runBytes := 0 } := by
            simp only [flushPending, hflush]
          obtain ⟨dev, hw'⟩ := flushPending_ok hflushed
          have hwritten := congrArg Wr.written hw'
          have hfile := congrArg (fun v => v.disk.file.size) hw'
          have hleft := htrack.left
          have hcounted := htrack.counted
          dsimp only at hwritten hfile
          refine ⟨by omega, ?_⟩
          rw [hfile]
          exact htrack.size.imp_right fun hlt => by have := htrack.pos; omega

theorem writeBody_size (a : Answers) (d : Disk) (offset count : ℕ) :
    (writeBody bs buf a d offset count).2.2.file.size =
      let w := (writeRuns bs buf a d offset count).2
      if 0 < w.written ∧ d.file.size < offset + w.written then offset + w.written
      else w.disk.file.size := by
  simp only [writeBody]
  by_cases hwritten : 0 < (writeRuns bs buf a d offset count).2.written
  · by_cases hpast : d.file.size < offset + (writeRuns bs buf a d offset count).2.written
    · simp [hwritten, hpast, Disk.touch, Disk.setSize]
    · simp [hwritten, hpast, Disk.touch]
  · simp [hwritten]

/-- **The size of a file after a write** follows the size law if and only if the write is not cut
    short. -/
theorem writeBody_size_iff (buf : ℕ → UInt8) (a : Answers) {d : Disk} {offset count : ℕ} (hcount : 0 < count)
    (hnum : Numbered bs offset count d.file.size) :
    SizeLaw d.file.size offset (writeBody bs buf a d offset count).2.1
        (writeBody bs buf a d offset count).2.2.file.size ↔
      ¬ CutShort bs buf a d offset count := by
  have hall := writeRuns_all buf a hnum
  have hwritten : (writeBody bs buf a d offset count).2.1 =
      (writeRuns bs buf a d offset count).2.written := rfl
  rw [writeBody_size, hwritten]
  simp only [CutShort]
  generalize writeRuns bs buf a d offset count = out at hall ⊢
  obtain ⟨r, w⟩ := out
  dsimp only at hall ⊢
  by_cases hpast : 0 < w.written ∧ d.file.size < offset + w.written
  · rw [if_pos hpast]
    simp only [SizeLaw]
    rw [if_pos hpast.1, Nat.max_eq_right (Nat.le_of_lt hpast.2)]
    simp [hpast]
  · rw [if_neg hpast]
    have hlaw : (if 0 < w.written then max d.file.size (offset + w.written) else d.file.size)
        = d.file.size := by
      split <;> omega
    simp only [SizeLaw, hlaw, hpast, not_false_eq_true, and_true, not_and_or, not_not]
    constructor
    · exact fun hsame => .inr hsame
    · rintro (hok | hsame)
      · obtain ⟨hwritten, hsize⟩ := hall hok
        exact hsize.resolve_right fun hlt => hpast (by omega)
      · exact hsame

end Files

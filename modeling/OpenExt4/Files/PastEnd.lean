import OpenExt4.Files.Owned
import OpenExt4.Files.Sizes

set_option autoImplicit false

/-! # The blocks that a write takes

Which blocks a file gains by a write or a preallocation. A write takes blocks for what it writes and
for the gap before it, and lets the size of the file reach behind them unless a command fails. -/

namespace Files

open ByteDevice

variable {bs : BlockSize} {buf : ℕ → UInt8}

/-! ## What a file has -/

/-- The file has a block of that number. -/
def File.has (f : File) (l : ℕ) : Prop := f.map l ≠ none

instance (f : File) (l : ℕ) : Decidable (f.has l) := inferInstanceAs (Decidable (f.map l ≠ none))

@[simp] theorem setSize_has (d : Disk) (size l : ℕ) : (d.setSize size).file.has l ↔ d.file.has l :=
  Iff.rfl

@[simp] theorem touch_has (d : Disk) (now l : ℕ) : (d.touch now).file.has l ↔ d.file.has l := Iff.rfl

@[simp] theorem markRun_has (f : File) (lblk n l : ℕ) : (f.markRun lblk n).has l ↔ f.has l := by
  simp only [File.has, markRun_map]
  split
  · simp
  · rfl

@[simp] theorem assign_has (f : File) (lblk fblk l : ℕ) :
    (f.assign lblk fblk).has l ↔ l = lblk ∨ f.has l := by
  simp only [File.has, assign_map, Function.update_apply]
  split
  · next h => simp [h]
  · next h => simp [h]

@[simp] theorem assignUnwritten_has (f : File) (lblk fblk l : ℕ) :
    (f.assignUnwritten lblk fblk).has l ↔ l = lblk ∨ f.has l := by
  simp only [File.has, assignUnwritten_map, Function.update_apply]
  split
  · next h => simp [h]
  · next h => simp [h]

@[simp] theorem remove_has (d : Disk) (p : ℕ → Bool) (l : ℕ) :
    (d.remove p).file.has l ↔ d.file.has l ∧ p l = false := by
  simp only [File.has, remove_map]
  cases p l with
  | true => simp
  | false => simp

/-- The file keeps its blocks and gains others only where `S` holds; nothing else of its inode
    changes but the size and the times. -/
structure Gains (S : ℕ → Prop) (d d' : Disk) : Prop where
  keeps : ∀ l, d.file.has l → d'.file.has l
  fresh : ∀ l, d'.file.has l → d.file.has l ∨ S l
  inode : d'.file = { d.file with
    mtime := d'.file.mtime, ctime := d'.file.ctime, size := d'.file.size, blocks := d'.file.blocks }

/-- Nothing is gained. -/
def Same (d d' : Disk) : Prop := Gains (fun _ => False) d d'

theorem Same.refl (d : Disk) : Same d d := ⟨fun _ h => h, fun _ h => .inl h, rfl⟩

theorem Gains.mono {S T : ℕ → Prop} {d d' : Disk} (h : Gains S d d') (hST : ∀ l, S l → T l) :
    Gains T d d' :=
  ⟨h.keeps, fun l hl => (h.fresh l hl).imp_right (hST l), h.inode⟩

theorem Same.gains {S : ℕ → Prop} {d d' : Disk} (h : Same d d') : Gains S d d' :=
  Gains.mono h fun _ hl => hl.elim

theorem Gains.trans {S : ℕ → Prop} {d d' d'' : Disk} (h : Gains S d d') (h' : Gains S d' d'') :
    Gains S d d'' where
  keeps l hl := h'.keeps l (h.keeps l hl)
  fresh l hl := by
    rcases h'.fresh l hl with hold | hnew
    · exact h.fresh l hold
    · exact .inr hnew
  inode := by rw [h'.inode, h.inode]

theorem Gains.setSize {S : ℕ → Prop} {d d' : Disk} (h : Gains S d d') (size : ℕ) :
    Gains S d (d'.setSize size) where
  keeps := h.keeps
  fresh := h.fresh
  inode := by simp only [Disk.setSize]; rw [h.inode]

theorem Gains.touch {S : ℕ → Prop} {d d' : Disk} (h : Gains S d d') (now : ℕ) :
    Gains S d (d'.touch now) where
  keeps := h.keeps
  fresh := h.fresh
  inode := by simp only [Disk.touch]; rw [h.inode]

theorem same_dev (d : Disk) (dev : ℕ → UInt8) : Same d { d with dev := dev } :=
  ⟨fun _ h => h, fun _ h => .inl h, rfl⟩

theorem same_mark (d : Disk) (lblk n : ℕ) (dev : ℕ → UInt8) :
    Same d { d with file := d.file.markRun lblk n, dev := dev } :=
  ⟨fun _ h => (markRun_has ..).mpr h, fun _ h => .inl ((markRun_has ..).mp h), rfl⟩

theorem gains_assign (d : Disk) (lblk fresh : ℕ) (used : ℕ → Bool) :
    Gains (· = lblk) d ⟨d.file.assign lblk fresh, used, d.dev⟩ :=
  ⟨fun _ h => (assign_has ..).mpr (.inr h), fun _ h => ((assign_has ..).mp h).symm, rfl⟩

/-! ## Mapping a block -/

/-- What a lookup that allocates takes: the block it is asked for, and then it is not 0. -/
def Takes (d : Disk) (lblk : ℕ) : Except (Errno × Disk) (ℕ × Disk) → Prop
  | .error (_, d') => Same d d' ∧ d'.file.size = d.file.size
  | .ok (fblk, d') => Gains (· = lblk) d d' ∧ (fblk = 0 → Same d d')

theorem getBlocks_takes (bs : BlockSize) (d : Disk) (o : Blocks) (iblock max : ℕ) :
    Takes d iblock ((getBlocks bs d o iblock max).map fun out => (out.1, out.2.2)) := by
  simp only [getBlocks]
  cases hm : d.file.map iblock with
  | none =>
      dsimp only
      split
      · exact ⟨Same.refl d, rfl⟩
      · split
        · exact ⟨Same.refl d, rfl⟩
        · next d' halloc =>
            obtain ⟨-, hne, rfl⟩ := allocBlock_ok halloc
            exact ⟨gains_assign d iblock o.fresh _, fun hzero => absurd hzero hne⟩
  | some m =>
      dsimp only
      split
      · split
        · exact ⟨same_dev d _, rfl⟩
        · exact ⟨Same.refl d, rfl⟩
      · split
        · exact ⟨(same_mark d _ _ _).gains, fun _ => same_mark d _ _ _⟩
        · exact ⟨(Same.refl d).gains, fun _ => Same.refl d⟩

theorem init_takes (bs : BlockSize) (d : Disk) (o : Blocks) (iblock : ℕ) :
    Takes d iblock (initInodeDblkIdx bs d o iblock) := by
  simp only [initInodeDblkIdx]
  split
  · exact ⟨(Same.refl d).gains, fun _ => Same.refl d⟩
  · split
    · have htakes := getBlocks_takes bs d o iblock 1
      cases hget : getBlocks bs d o iblock 1 with
      | error e =>
          rw [hget] at htakes
          exact htakes
      | ok out =>
          rw [hget] at htakes
          exact htakes
    · split
      · exact ⟨Same.refl d, rfl⟩
      · exact ⟨(Same.refl d).gains, fun _ => Same.refl d⟩
      · exact ⟨(Same.refl d).gains, fun _ => Same.refl d⟩

/-- An append takes the block behind the end, and the size grows over it. -/
theorem append_takes (bs : BlockSize) (d : Disk) (o : Blocks) (max : ℕ)
    (hlt : blocksFor bs d.file.size < 2 ^ 32) :
    Takes d (blocksFor bs d.file.size)
        ((appendInodeDblkRange bs d o max).map fun out => (out.1, out.2.2)) ∧
      ∀ fblk got d', appendInodeDblkRange bs d o max = .ok (fblk, got, d') →
        blocksFor bs d'.file.size = blocksFor bs d.file.size + got ∧
          d.file.size ≤ d'.file.size := by
  simp only [appendInodeDblkRange]
  split
  · rw [u32_of_lt hlt]
    have htakes := getBlocks_takes bs d o (blocksFor bs d.file.size) max
    cases hget : getBlocks bs d o (blocksFor bs d.file.size) max with
    | error e =>
        rw [hget] at htakes
        exact ⟨htakes, fun _ _ _ h => by cases h⟩
    | ok out =>
        obtain ⟨fblk, got, d'⟩ := out
        rw [hget] at htakes
        refine ⟨⟨htakes.1.setSize _, fun hzero => (htakes.2 hzero).setSize _⟩, fun _ _ _ h => ?_⟩
        simp only [Except.ok.injEq, Prod.mk.injEq] at h
        obtain ⟨-, rfl, rfl⟩ := h
        exact ⟨blocksFor_add .., Nat.le_add_right _ _⟩
  · simp only [appendInodeDblk]
    cases halloc : allocBlock d o.fresh with
    | error e => exact ⟨⟨Same.refl d, rfl⟩, fun _ _ _ h => by cases h⟩
    | ok d' =>
        obtain ⟨-, hne, rfl⟩ := allocBlock_ok halloc
        cases o.fails with
        | some e => exact ⟨⟨Same.refl d, rfl⟩, fun _ _ _ h => by cases h⟩
        | none =>
            have hidx : u32 (blocksFor bs d.file.size * bs.val / bs.val)
                = blocksFor bs d.file.size := by
              rw [Nat.mul_div_cancel _ bs.pos, u32_of_lt hlt]
            dsimp only
            rw [hidx]
            refine ⟨⟨(gains_assign d _ _ _).setSize _, fun hzero => absurd hzero hne⟩,
              fun _ _ _ h => ?_⟩
            simp only [Except.ok.injEq, Prod.mk.injEq] at h
            obtain ⟨-, rfl, rfl⟩ := h
            have hsize : blocksFor bs d.file.size * bs.val + bs.val
                = (blocksFor bs d.file.size + 1) * bs.val := by rw [Nat.add_mul, Nat.one_mul]
            have hle := le_blocksFor_mul bs d.file.size
            simp only [Disk.setSize, hsize, blocksFor_mul, true_and]
            omega

/-! ## The parts of a turn -/

/-- A part of a turn that takes no blocks; it fails only where `fails` says. -/
def Inert (fails : Prop) (w : Wr) : Except (Errno × Wr) Wr → Prop
  | .error (_, w') => fails ∧ Took 0 w w' ∧ Same w.disk w'.disk ∧
      w'.disk.file.size = w.disk.file.size
  | .ok w' => w.haveBlocks ≤ w'.haveBlocks ∧ Same w.disk w'.disk ∧
      w'.disk.file.size = w.disk.file.size

/-- The commands of a turn land, and nothing behind them fails. -/
def Turn.Smooth (t : Turn) : Prop :=
  t.flush = .lands ∧ t.data = .lands ∧ t.mark = none ∧ t.noMemory = false

section Parts

variable {w : Wr} {t : Turn}

theorem writeAt_lands {dev dev' : ℕ → UInt8} {l : Landing Errno} {off n : ℕ} {data : ℕ → UInt8}
    {e : Errno} (h : writeAt dev l off n data = (some e, dev')) : l ≠ .lands := by
  rintro rfl
  simp [writeAt] at h

theorem markWritten_fails {f f' : File} {fails : Option Errno} {lblk n : ℕ} {e : Errno}
    (h : markWritten f fails lblk n = (some e, f')) : fails ≠ none ∧ f' = f := by
  simp only [markWritten] at h
  split at h
  · exact ⟨by simp, (Prod.mk.inj h).2.symm⟩
  · simp at h

theorem flushPending_inert (bs : BlockSize) (buf : ℕ → UInt8) (t : Turn)
    (hfits : w.haveBlocks < 2 ^ 32) :
    Inert (t.flush ≠ .lands) w (flushPending bs buf t.flush w) := by
  simp only [flushPending, flushRun]
  by_cases hnone : w.runBlocks = 0
  · rw [if_pos hnone]
    exact ⟨Nat.le_refl _, Same.refl _, rfl⟩
  · rw [if_neg hnone]
    cases hwrite : writeAt w.disk.dev t.flush (w.runFirst * bs.val) (u32 (w.runBlocks * bs.val))
      fun i => buf (w.runSrc + i) with
    | mk e dev =>
        cases e with
        | none => exact ⟨Nat.le_refl _, same_dev _ _, rfl⟩
        | some e =>
            exact ⟨writeAt_lands hwrite, ⟨rfl, rfl, rfl, rfl, Nat.le_refl _, hfits⟩,
              same_dev _ _, rfl⟩

theorem queueBlock_inert (hfits : w.haveBlocks < 2 ^ 32) (fblk : ℕ) :
    Inert (¬ t.Smooth) w (queueBlock bs buf t w fblk) := by
  simp only [queueBlock]
  split
  · exact ⟨Nat.le_refl _, Same.refl _, rfl⟩
  · have hflush := flushPending_inert bs buf t hfits
    cases hp : flushPending bs buf t.flush w with
    | error e =>
        rw [hp] at hflush
        exact ⟨fun hsmooth => hflush.1 hsmooth.1, hflush.2⟩
    | ok w' =>
        rw [hp] at hflush
        exact hflush

theorem writePartial_inert (hfits : w.haveBlocks < 2 ^ 32) (lblk fblk inOff chunk : ℕ)
    (tail : Bool) : Inert (¬ t.Smooth) w (writePartial bs buf t w lblk fblk inOff chunk tail) := by
  have hflush := flushPending_inert bs buf t hfits
  simp only [writePartial]
  cases hp : flushPending bs buf t.flush w with
  | error e =>
      rw [hp] at hflush
      exact ⟨fun hsmooth => hflush.1 hsmooth.1, hflush.2⟩
  | ok w₁ =>
      obtain ⟨dev, rfl⟩ := flushPending_ok hp
      have htook : ∀ d : Disk, Took 0 w { w with
          disk := d, runBlocks := 0, runBytes := 0, written := w.written + w.runBytes } :=
        fun _ => ⟨rfl, rfl, rfl, rfl, Nat.le_refl _, hfits⟩
      dsimp only
      split
      · split
        · next hmemory =>
            refine ⟨fun hsmooth => ?_, htook _, same_dev _ _, rfl⟩
            rw [hsmooth.2.2.2] at hmemory
            cases hmemory
        · split
          · next e dev' hwrite =>
              exact ⟨fun hsmooth => writeAt_lands hwrite hsmooth.2.1, htook _, same_dev _ _, rfl⟩
          · split
            · next e f hmark =>
                obtain ⟨hfails, rfl⟩ := markWritten_fails hmark
                exact ⟨fun hsmooth => hfails hsmooth.2.2.1, htook _, same_dev _ _, rfl⟩
            · next f hmark =>
                rw [markWritten_ok hmark]
                exact ⟨Nat.le_refl _, same_mark _ _ _ _, rfl⟩
      · split
        · next e dev' hwrite =>
            exact ⟨fun hsmooth => writeAt_lands hwrite hsmooth.2.1, htook _, same_dev _ _, rfl⟩
        · exact ⟨Nat.le_refl _, same_dev _ _, rfl⟩

theorem fastTurn_inert (hfits : w.haveBlocks < 2 ^ 32) (lblk : ℕ) (m : Mapping) (n : ℕ) :
    Inert (¬ t.Smooth) w (fastTurn bs buf t w lblk m n) := by
  have hflush := flushPending_inert bs buf t hfits
  simp only [fastTurn]
  cases hp : flushPending bs buf t.flush w with
  | error e =>
      rw [hp] at hflush
      exact ⟨fun hsmooth => hflush.1 hsmooth.1, hflush.2⟩
  | ok w₁ =>
      obtain ⟨dev, rfl⟩ := flushPending_ok hp
      have htook : ∀ d : Disk, Took 0 w { w with
          disk := d, runBlocks := 0, runBytes := 0, written := w.written + w.runBytes } :=
        fun _ => ⟨rfl, rfl, rfl, rfl, Nat.le_refl _, hfits⟩
      dsimp only
      split
      · next e dev' hwrite =>
          exact ⟨fun hsmooth => writeAt_lands hwrite hsmooth.2.1, htook _, same_dev _ _, rfl⟩
      · split
        · next e f hmark =>
            obtain ⟨hfails, rfl⟩ := markWritten_fails hmark
            exact ⟨fun hsmooth => hfails hsmooth.2.2.1, htook _, same_dev _ _, rfl⟩
        · next f hmark =>
            rw [markWritten_ok hmark]
            refine ⟨?_, same_mark _ _ _ _, rfl⟩
            simp only [Wr.advance]
            split <;> omega

/-- Where the block of a turn is takes the block itself, and those of the gap before it, which the
    size then reaches behind. -/
def Located (bs : BlockSize) (w : Wr) (lblk : ℕ) : Except (Errno × Wr) (ℕ × Wr) → Prop
  | .error (_, w') => ∃ d n, w' = w.setDisk d n ∧ w.haveBlocks ≤ n ∧ n < 2 ^ 32 ∧
      blocksFor bs d.file.size ≤ n ∧ w.disk.file.size ≤ d.file.size ∧
      Gains (fun l => l < lblk ∧ l < blocksFor bs d.file.size) w.disk d
  | .ok (fblk, w') => ∃ d n, w' = w.setDisk d n ∧ w.haveBlocks ≤ n ∧ n < 2 ^ 32 ∧
      blocksFor bs d.file.size ≤ n ∧ w.disk.file.size ≤ d.file.size ∧
      Gains (· ≤ lblk) w.disk d ∧
      (fblk = 0 → Gains (fun l => l < lblk ∧ l < blocksFor bs d.file.size) w.disk d)

/-- Nothing is taken yet. -/
theorem Located.start {lblk fblk : ℕ} (hfits : w.haveBlocks < 2 ^ 32)
    (hsized : blocksFor bs w.disk.file.size ≤ w.haveBlocks) : Located bs w lblk (.ok (fblk, w)) :=
  ⟨w.disk, w.haveBlocks, rfl, Nat.le_refl _, hfits, hsized, Nat.le_refl _, (Same.refl _).gains,
    fun _ => (Same.refl _).gains⟩

theorem blocksFor_mono (bs : BlockSize) {m n : ℕ} (h : m ≤ n) : blocksFor bs m ≤ blocksFor bs n :=
  Nat.div_le_div_right (by omega)

theorem lt_blocksFor {l n : ℕ} (h : l * bs.val < n) : l < blocksFor bs n :=
  (Nat.le_div_iff_mul_le bs.pos).mpr (by rw [Nat.succ_mul]; omega)

theorem blocksFor_pos {n : ℕ} (h : 0 < n) : 0 < blocksFor bs n :=
  Nat.div_pos (by omega) bs.pos

/-- At a block that the file is taken to have the walk is over. -/
theorem appendTo_there {lblk fblk : ℕ} {os : List Blocks} (h : lblk < w.haveBlocks) :
    appendTo bs lblk os fblk w = .ok (fblk, w) := by
  cases os with
  | nil => exact if_pos h
  | cons o os => exact if_pos h

/-- The walk past the end takes the blocks it goes over. -/
theorem appendTo_located {lblk fblk : ℕ} {os : List Blocks} (hleft : 0 < w.remaining)
    (hroom : lblk + blocksFor bs w.remaining < 2 ^ 32) (hfits : w.haveBlocks < 2 ^ 32)
    (hsized : blocksFor bs w.disk.file.size ≤ w.haveBlocks) :
    Located bs w lblk (appendTo bs lblk os fblk w) := by
  induction os generalizing fblk w with
  | nil =>
      simp only [appendTo]
      split
      · exact Located.start hfits hsized
      · exact ⟨w.disk, w.haveBlocks, rfl, Nat.le_refl _, hfits, hsized, Nat.le_refl _,
          (Same.refl _).gains⟩
  | cons o os ih =>
      simp only [appendTo]
      split
      · exact Located.start hfits hsized
      · next hle =>
          generalize hwant : (if w.haveBlocks = lblk
            then max 1 (min (blocksFor bs w.remaining) (2 ^ 32 - 1)) else 1) = want
          have hat : blocksFor bs w.disk.file.size ≤ lblk := by omega
          obtain ⟨htakes, hgrows⟩ := append_takes bs w.disk o want (by omega)
          cases happend : appendInodeDblkRange bs w.disk o want with
          | error e =>
              rw [happend] at htakes
              obtain ⟨hsame, hsize⟩ := htakes
              exact ⟨e.2, w.haveBlocks, rfl, Nat.le_refl _, hfits, hsize ▸ hsized, hsize.ge,
                hsame.gains⟩
          | ok out =>
              obtain ⟨fblk', got, d⟩ := out
              rw [happend] at htakes
              obtain ⟨hgains, hzero⟩ := htakes
              obtain ⟨hblocks, hsize⟩ := hgrows fblk' got d happend
              have hwant' : 0 < want ∧ w.haveBlocks + want < 2 ^ 32 := by
                have hpos : 0 < blocksFor bs w.remaining := blocksFor_pos hleft
                rw [← hwant]
                split <;> omega
              obtain ⟨hgot, hmax⟩ := append_count hwant'.1 happend
              have hsum : u32 (w.haveBlocks + got) = w.haveBlocks + got := u32_of_lt (by omega)
              dsimp only
              rw [hsum]
              by_cases hlast : w.haveBlocks = lblk
              · rw [appendTo_there (by dsimp only; omega)]
                exact ⟨d, w.haveBlocks + got, rfl, Nat.le_add_right _ _, by omega, by omega, hsize,
                  hgains.mono fun l hl => by omega, fun h => (hzero h).gains⟩
              · -- in the gap, and the walk goes on
                have hrest : Located bs (w.setDisk d (w.haveBlocks + got)) lblk
                    (appendTo bs lblk os fblk' (w.setDisk d (w.haveBlocks + got))) :=
                  ih hleft hroom (by simp only [Wr.setDisk]; omega)
                    (by simp only [Wr.setDisk]; omega)
                have hgap : ∀ d' : Disk, d.file.size ≤ d'.file.size →
                    Gains (fun l => l < lblk ∧ l < blocksFor bs d'.file.size) w.disk d := by
                  intro d' hle'
                  have hmono := blocksFor_mono bs hle'
                  exact hgains.mono fun l hl => ⟨by omega, by omega⟩
                simp only [Wr.setDisk] at hrest
                generalize appendTo bs lblk os fblk' _ = out at hrest ⊢
                cases out with
                | error e =>
                    obtain ⟨d', n, hw', hhave, hn, hsized', hsize', hgains'⟩ := hrest
                    exact ⟨d', n, hw', by dsimp only at hhave; omega, hn, hsized',
                      hsize.trans hsize', (hgap d' hsize').trans hgains'⟩
                | ok out =>
                    obtain ⟨d', n, hw', hhave, hn, hsized', hsize', hgains', hzero'⟩ := hrest
                    exact ⟨d', n, hw', by dsimp only at hhave; omega, hn, hsized',
                      hsize.trans hsize',
                      ((hgap d' hsize').mono fun l hl => Nat.le_of_lt hl.1).trans hgains',
                      fun h => (hgap d' hsize').trans (hzero' h)⟩

theorem locate_located {lblk : ℕ} (hleft : 0 < w.remaining)
    (hroom : lblk + blocksFor bs w.remaining < 2 ^ 32) (hfits : w.haveBlocks < 2 ^ 32)
    (hsized : blocksFor bs w.disk.file.size ≤ w.haveBlocks) :
    Located bs w lblk (locate bs t w lblk) := by
  simp only [locate]
  split
  · exact Located.start hfits hsized
  · split
    · have htakes := init_takes bs w.disk t.init lblk
      cases hinit : initInodeDblkIdx bs w.disk t.init lblk with
      | error e =>
          rw [hinit] at htakes
          obtain ⟨hsame, hsize⟩ := htakes
          exact ⟨e.2, w.haveBlocks, rfl, Nat.le_refl _, hfits, hsize ▸ hsized, hsize.ge, hsame.gains⟩
      | ok out =>
          rw [hinit] at htakes
          obtain ⟨hgains, hzero⟩ := htakes
          have hsize := init_size hinit
          exact ⟨out.2, w.haveBlocks, rfl, Nat.le_refl _, hfits, hsize ▸ hsized, hsize.ge,
            hgains.mono fun l hl => hl.le, fun h => (hzero h).gains⟩
    · exact appendTo_located hleft hroom hfits hsized

/-- A turn takes blocks up to its own. One that fails on the blocks alone has taken those of the gap
    only. -/
def Turned (bs : BlockSize) (t : Turn) (w : Wr) : Except (Errno × Wr) Wr → Prop
  | .error (_, w') => Took 0 w w' ∧ blocksFor bs w'.disk.file.size ≤ w'.haveBlocks ∧
      w.disk.file.size ≤ w'.disk.file.size ∧ Gains (· ≤ w.lblk bs) w.disk w'.disk ∧
      (t.Smooth →
        Gains (fun l => l < w.lblk bs ∧ l < blocksFor bs w'.disk.file.size) w.disk w'.disk)
  | .ok w' => blocksFor bs w'.disk.file.size ≤ w'.haveBlocks ∧
      w.disk.file.size ≤ w'.disk.file.size ∧ Gains (· ≤ w.lblk bs) w.disk w'.disk

/-- What takes no blocks, behind what has taken some. -/
theorem Turned.inert {w₁ : Wr} {out : Except (Errno × Wr) Wr} (htook : Took 0 w w₁)
    (hsized : blocksFor bs w₁.disk.file.size ≤ w₁.haveBlocks)
    (hsize : w.disk.file.size ≤ w₁.disk.file.size) (hgains : Gains (· ≤ w.lblk bs) w.disk w₁.disk)
    (hout : Inert (¬ t.Smooth) w₁ out) : Turned bs t w out := by
  cases out with
  | error e =>
      obtain ⟨hfails, htook', hsame, hsize'⟩ := hout
      refine ⟨⟨htook'.pos.trans htook.pos, htook'.src.trans htook.src,
        htook'.remaining.trans htook.remaining, htook'.counted.trans htook.counted,
        htook.blocks.trans htook'.blocks, htook'.fits⟩, ?_, hsize'.symm ▸ hsize,
        hgains.trans hsame.gains, fun hsmooth => absurd hsmooth hfails⟩
      rw [hsize']
      exact hsized.trans htook'.blocks
  | ok w' =>
      obtain ⟨hblocks, hsame, hsize'⟩ := hout
      refine ⟨?_, hsize'.symm ▸ hsize, hgains.trans hsame.gains⟩
      rw [hsize']
      exact hsized.trans hblocks

theorem blockTurn_turned (hleft : 0 < w.remaining)
    (hroom : w.lblk bs + blocksFor bs w.remaining < 2 ^ 32) (hfits : w.haveBlocks < 2 ^ 32)
    (hsized : blocksFor bs w.disk.file.size ≤ w.haveBlocks) :
    Turned bs t w (blockTurn bs buf t w) := by
  have hlocated := locate_located (t := t) hleft hroom hfits hsized
  simp only [blockTurn]
  cases hlocate : locate bs t w (w.lblk bs) with
  | error e =>
      rw [hlocate] at hlocated
      obtain ⟨d, n, hw', hle, hn, hsized', hsize, hgains⟩ := hlocated
      dsimp only
      rw [show e = (e.1, e.2) from rfl, hw']
      exact ⟨⟨rfl, rfl, rfl, rfl, hle, hn⟩, hsized', hsize,
        hgains.mono fun l hl => Nat.le_of_lt hl.1, fun _ => hgains⟩
  | ok out =>
      obtain ⟨fblk, w₁⟩ := out
      rw [hlocate] at hlocated
      obtain ⟨d, n, rfl, hle, hn, hsized', hsize, hgains, hzero⟩ := hlocated
      have htook : Took 0 w (w.setDisk d n) := ⟨rfl, rfl, rfl, rfl, hle, hn⟩
      dsimp only
      split
      · next h => exact ⟨htook, hsized', hsize, hgains, fun _ => hzero h⟩
      · have hdone : Inert (¬ t.Smooth) (w.setDisk d n)
            (if w.inOff bs = 0 ∧ w.chunk bs = bs.val then queueBlock bs buf t (w.setDisk d n) fblk
              else writePartial bs buf t (w.setDisk d n) (w.lblk bs) fblk (w.inOff bs) (w.chunk bs)
                ((pastEnd t w (w.lblk bs)).any (·.unwritten))) := by
          split
          · exact queueBlock_inert hn fblk
          · exact writePartial_inert hn _ _ _ _ _
        have hturned := Turned.inert htook hsized' hsize hgains hdone
        split
        · next e he =>
            rw [he] at hturned
            exact hturned
        · next w₂ hw₂ =>
            rw [hw₂] at hturned
            exact hturned

theorem turn_turned (buf : ℕ → UInt8) (t : Turn) (hleft : 0 < w.remaining)
    (hroom : w.lblk bs + blocksFor bs w.remaining < 2 ^ 32) (hfits : w.haveBlocks < 2 ^ 32)
    (hsized : blocksFor bs w.disk.file.size ≤ w.haveBlocks) :
    Turned bs t w (turn bs buf t w) := by
  simp only [turn]
  split
  · exact Turned.inert ⟨rfl, rfl, rfl, rfl, Nat.le_refl _, hfits⟩ hsized (Nat.le_refl _)
      (Same.refl _).gains (fastTurn_inert hfits _ _ _)
  · exact blockTurn_turned hleft hroom hfits hsized

end Parts

/-! ## The loop -/

/-- What the loop has taken so far lies before its place in the file; and before it has written
    anything, below the end. -/
structure Filled (bs : BlockSize) (d : Disk) (w : Wr) : Prop where
  gains : Gains (fun l => l * bs.val < w.pos ∧ (w.src = 0 → l < blocksFor bs w.disk.file.size)) d
    w.disk
  grows : d.file.size ≤ w.disk.file.size
  sized : blocksFor bs w.disk.file.size ≤ w.haveBlocks

/-- Where the loop ends: it has counted no more than it was given, and the size has a block number. -/
structure Ends (bs : BlockSize) (d : Disk) (offset count : ℕ) (w : Wr) : Prop where
  counted : w.written + w.runBytes ≤ count
  gains : Gains (fun l => l * bs.val < offset + count) d w.disk
  grows : d.file.size ≤ w.disk.file.size
  fits : blocksFor bs w.disk.file.size < 2 ^ 32

section Loop

variable {offset count old : ℕ} {d : Disk} {w w' : Wr}

/-- A block up to the one of the turn begins before the place of the turn. -/
theorem Track.before (h : Track bs offset count old w) (hnum : Numbered bs offset count old)
    {l : ℕ} (hl : l ≤ w.lblk bs) : l * bs.val ≤ w.pos := by
  have hpos := h.pos_eq hnum
  have hmul := Nat.mul_le_mul_right bs.val hl
  omega

/-- A turn that goes on gets further. -/
theorem Track.moves {t : Turn} (h : Track bs offset count old w)
    (hnum : Numbered bs offset count old) (hleft : 0 < w.remaining)
    (hturn : turn bs buf t w = .ok w') : w.src < w'.src := by
  simp only [turn] at hturn
  split at hturn
  · next m n hfast =>
      obtain ⟨-, hn, hle, hlen, -⟩ := fastRange_some hfast
      obtain ⟨w₁, rfl, htook, -⟩ := fastTurn_took hlen h.fits hturn
      have hpos := Nat.mul_pos hn bs.pos
      simp only [Wr.advance, htook.src]
      omega
  · obtain ⟨w₁, rfl, htook, -⟩ := blockTurn_took h hnum hleft hturn
    have hpos := @Wr.chunk_pos bs w hleft
    simp only [Wr.advance, htook.src]
    omega

theorem Filled.ends (h : Filled bs d w) (htrack : Track bs offset count old w) :
    Ends bs d offset count w where
  counted := by
    have hcounted := htrack.counted
    have hleft := htrack.left
    omega
  gains := h.gains.mono fun l hl => by
    have hpos := htrack.pos
    have hleft := htrack.left
    omega
  grows := h.grows
  fits := Nat.lt_of_le_of_lt h.sized htrack.fits

theorem Filled.step {t : Turn} (h : Filled bs d w) (htrack : Track bs offset count old w)
    (hnum : Numbered bs offset count old) (hleft : 0 < w.remaining)
    (hturn : turn bs buf t w = .ok w') : Filled bs d w' := by
  have hroom := htrack.numbered hnum
  rw [← htrack.lblk hnum] at hroom
  have hturned := turn_turned buf t hleft hroom htrack.fits h.sized
  rw [hturn] at hturned
  obtain ⟨hsized, hsize, hgains⟩ := hturned
  have hmoves := htrack.moves hnum hleft hturn
  have hpos := htrack.pos
  have hpos' := (htrack.step hnum hleft hturn).pos
  refine ⟨(h.gains.mono fun l hl => ⟨by omega, fun hzero => by omega⟩).trans
    (hgains.mono fun l hl => ⟨?_, fun hzero => by omega⟩), h.grows.trans hsize, hsized⟩
  have hbefore := htrack.before hnum hl
  omega

/-- A turn that fails ends the loop; and on the blocks alone, with everything written that the blocks
    were taken for. -/
theorem Filled.stop {t : Turn} {e : Errno} (h : Filled bs d w)
    (htrack : Track bs offset count old w) (hnum : Numbered bs offset count old)
    (hleft : 0 < w.remaining) (hturn : turn bs buf t w = .error (e, w')) :
    Ends bs d offset count w' ∧
      (t.Smooth → Filled bs d w' ∧ w'.written + w'.runBytes = w'.src ∧ w'.pos = offset + w'.src) := by
  have hroom := htrack.numbered hnum
  rw [← htrack.lblk hnum] at hroom
  have hturned := turn_turned buf t hleft hroom htrack.fits h.sized
  rw [hturn] at hturned
  obtain ⟨htook, hsized, hsize, hgains, hsmooth⟩ := hturned
  have hpos := htrack.pos
  have hsum := htrack.left
  have hcounted := htrack.counted
  have hcounted' := htook.counted
  refine ⟨⟨by omega, ?_, h.grows.trans hsize, Nat.lt_of_le_of_lt hsized htook.fits⟩, fun ht =>
    ⟨⟨?_, h.grows.trans hsize, hsized⟩, by rw [htook.src]; omega, by rw [htook.pos, htook.src, hpos]⟩⟩
  · refine (h.gains.mono fun l hl => by omega).trans (hgains.mono fun l hl => ?_)
    have hbefore := htrack.before hnum hl
    omega
  · rw [htook.pos, htook.src]
    have hmono := blocksFor_mono bs hsize
    have hgap : ∀ l, l < w.lblk bs → l * bs.val < w.pos := by
      intro l hl
      have hnext := htrack.before hnum (l := l + 1) hl
      have hbs := bs.pos
      rw [Nat.add_mul, Nat.one_mul] at hnext
      omega
    exact (h.gains.mono fun l hl => ⟨hl.1, fun hzero => Nat.lt_of_lt_of_le (hl.2 hzero) hmono⟩).trans
      ((hsmooth ht).mono fun l hl => ⟨hgap l hl.1, fun _ => hl.2⟩)

theorem Filled.loop (buf : ℕ → UInt8) (ts : List Turn) (h : Filled bs d w) (htrack : Track bs offset count old w)
    (hnum : Numbered bs offset count old) :
    Ends bs d offset count (writeLoop bs buf ts w).2 ∧
      ((∀ t ∈ ts, t.Smooth) → Filled bs d (writeLoop bs buf ts w).2 ∧
        (writeLoop bs buf ts w).2.written + (writeLoop bs buf ts w).2.runBytes =
          (writeLoop bs buf ts w).2.src ∧
        (writeLoop bs buf ts w).2.pos = offset + (writeLoop bs buf ts w).2.src) := by
  have hdone : Ends bs d offset count w ∧
      (Filled bs d w ∧ w.written + w.runBytes = w.src ∧ w.pos = offset + w.src) :=
    ⟨h.ends htrack, h, htrack.counted, htrack.pos⟩
  induction ts generalizing w with
  | nil =>
      simp only [writeLoop]
      split
      · exact ⟨hdone.1, fun _ => hdone.2⟩
      · exact ⟨hdone.1, fun _ => hdone.2⟩
  | cons t ts ih =>
      simp only [writeLoop]
      split
      · exact ⟨hdone.1, fun _ => hdone.2⟩
      · next hleft =>
          have hpos := Nat.pos_of_ne_zero hleft
          cases hturn : turn bs buf t w with
          | error e =>
              obtain ⟨hends, hsmooth⟩ := h.stop htrack hnum hpos hturn
              exact ⟨hends, fun hall => hsmooth (hall t (by simp))⟩
          | ok w₁ =>
              have hfilled := h.step htrack hnum hpos hturn
              have htrack' := htrack.step hnum hpos hturn
              obtain ⟨hends, hsmooth⟩ := ih hfilled htrack'
                ⟨hfilled.ends htrack', hfilled, htrack'.counted, htrack'.pos⟩
              exact ⟨hends, fun hall => hsmooth fun t ht => hall t (by simp [ht])⟩

end Loop

/-- The commands of a call land, and nothing behind them fails. -/
def Answers.Smooth (a : Answers) : Prop := (∀ t ∈ a.turns, t.Smooth) ∧ a.last = .lands

theorem flushRun_disk (bs : BlockSize) (buf : ℕ → UInt8) (l : Landing Errno) (w : Wr) :
    ∃ dev n, (flushRun bs buf l w).2 = { w with disk := { w.disk with dev := dev }, runBlocks := n } := by
  simp only [flushRun]
  split
  · exact ⟨w.disk.dev, w.runBlocks, rfl⟩
  · exact ⟨_, 0, rfl⟩

theorem lastRun_disk (bs : BlockSize) (buf : ℕ → UInt8) (l : Landing Errno)
    (out : Option Errno × Wr) :
    ∃ dev, (lastRun bs buf l out).2.disk = { out.2.disk with dev := dev } ∧
      (lastRun bs buf l out).2.written ≤ out.2.written + out.2.runBytes ∧
      (l = .lands → (lastRun bs buf l out).2.written = out.2.written + out.2.runBytes) := by
  obtain ⟨dev, n, hw⟩ := flushRun_disk bs buf l out.2
  simp only [lastRun]
  cases hflush : flushRun bs buf l out.2 with
  | mk e w =>
      rw [hflush] at hw
      cases e with
      | none =>
          dsimp only at hw ⊢
          rw [hw]
          exact ⟨dev, rfl, Nat.le_refl _, fun _ => rfl⟩
      | some e =>
          dsimp only at hw ⊢
          rw [hw]
          refine ⟨dev, rfl, Nat.le_add_right _ _, ?_⟩
          rintro rfl
          simp only [flushRun] at hflush
          split at hflush
          · simp at hflush
          · simp [writeAt] at hflush

/-- **What a write leaves past the end.** It lets a file grow and keep its blocks. The blocks it takes
    are below the end, unless the write reaches past the old end and a command of it fails. -/
theorem writeBody_gains (buf : ℕ → UInt8) (a : Answers) {d : Disk} {offset count : ℕ}
    (hnum : Numbered bs offset count d.file.size) :
    d.file.size ≤ (writeBody bs buf a d offset count).2.2.file.size ∧
      blocksFor bs (writeBody bs buf a d offset count).2.2.file.size < 2 ^ 32 ∧
      Gains (fun l => l * bs.val < offset + count) d (writeBody bs buf a d offset count).2.2 ∧
      (a.Smooth → Gains (fun l => l < blocksFor bs (writeBody bs buf a d offset count).2.2.file.size)
        d (writeBody bs buf a d offset count).2.2) := by
  have hfits := u32_of_lt hnum.2
  rw [writeBody_size]
  have hstart : Track bs offset count d.file.size
      ⟨d, u32 (blocksFor bs d.file.size), offset, count, 0, 0, 0, 0, 0, 0⟩ :=
    ⟨rfl, Nat.zero_add _, rfl, hfits.ge, Nat.mod_lt _ (by decide), .inl rfl⟩
  have hfilled : Filled bs d ⟨d, u32 (blocksFor bs d.file.size), offset, count, 0, 0, 0, 0, 0, 0⟩ :=
    ⟨(Same.refl d).gains, Nat.le_refl _, hfits.ge⟩
  obtain ⟨hends, hsmooth⟩ := hfilled.loop buf a.turns hstart hnum
  have hout : ∀ S, Gains S d (writeLoop bs buf a.turns
        ⟨d, u32 (blocksFor bs d.file.size), offset, count, 0, 0, 0, 0, 0, 0⟩).2.disk →
      Gains S d (writeBody bs buf a d offset count).2.2 := by
    intro S hgains
    obtain ⟨dev, hdisk, -⟩ := lastRun_disk bs buf a.last (writeLoop bs buf a.turns
      ⟨d, u32 (blocksFor bs d.file.size), offset, count, 0, 0, 0, 0, 0, 0⟩)
    have hlast := hgains.trans (same_dev _ dev).gains
    simp only [writeBody, writeRuns, hdisk]
    split
    · split
      · exact (hlast.setSize _).touch _
      · exact hlast.touch _
    · exact hlast
  obtain ⟨dev, hdisk, hle, hall⟩ := lastRun_disk bs buf a.last (writeLoop bs buf a.turns
    ⟨d, u32 (blocksFor bs d.file.size), offset, count, 0, 0, 0, 0, 0, 0⟩)
  simp only [writeRuns, hdisk]
  generalize writeLoop bs buf a.turns _ = out at hends hsmooth hout hle hall ⊢
  have hgrows := hends.grows
  have hcounted := hends.counted
  generalize (lastRun bs buf a.last out).2.written = written at hle hall ⊢
  refine ⟨?_, ?_, hout _ hends.gains, fun hturns => hout _ ?_⟩
  · split <;> omega
  · split
    · have hend := hnum.1
      have hmono := blocksFor_mono bs (show offset + written ≤ (2 ^ 32 - 1) * bs.val by omega)
      rw [blocksFor_mul] at hmono
      omega
    · exact hends.fits
  · obtain ⟨hfilled, hsrc, hpos⟩ := hsmooth hturns.1
    refine hfilled.gains.mono fun l hl => ?_
    have hwritten := hall hturns.2
    split
    · exact lt_blocksFor (by omega)
    · next hshort =>
        by_cases hzero : out.2.src = 0
        · exact hl.2 hzero
        · exact lt_blocksFor (by omega)

/-! ## Preallocation -/

/-- What a preallocation covers: the blocks from `iblock` on without a hole, as many as it allocated
    or more; and it takes none anywhere else. -/
structure Covers (iblock count done allocated : ℕ) (d : Disk) (out : Option Errno × ℕ × Disk) : Prop where
  covered : ∃ m, done ≤ m ∧ out.2.1 ≤ m ∧ (out.1 = none → count ≤ m) ∧
    (∀ l, iblock ≤ l → l < iblock + m → out.2.2.file.has l) ∧
    Gains (fun l => iblock ≤ l ∧ l < iblock + m) d out.2.2
  within : Gains (fun l => iblock ≤ l ∧ l < iblock + count) d out.2.2
  size : out.2.2.file.size = d.file.size
  more : allocated ≤ out.2.1
  bound : out.2.1 ≤ max allocated count
  none : out.2.1 = allocated → Same d out.2.2

theorem preallocate_covers (iblock count : ℕ) (hfits : iblock + count ≤ 2 ^ 32) (os : List Blocks)
    {done allocated : ℕ} {d : Disk} (hle : allocated ≤ done)
    (hdone : ∀ l, iblock ≤ l → l < iblock + done → d.file.has l) :
    Covers iblock count done allocated d (preallocate iblock count os done allocated d) := by
  have hstop : ∀ r : Option Errno, (r = none → count ≤ done) →
      Covers iblock count done allocated d (r, allocated, d) := fun r hr =>
    ⟨⟨done, Nat.le_refl _, hle, hr, hdone, (Same.refl d).gains⟩, (Same.refl d).gains, rfl, Nat.le_refl _,
      Nat.le_max_left _ _, fun _ => Same.refl d⟩
  induction os generalizing done allocated d with
  | nil =>
      simp only [preallocate]
      refine hstop _ fun h => ?_
      by_contra hlt
      rw [if_neg hlt] at h
      cases h
  | cons o os ih =>
      simp only [preallocate]
      split
      · next h => exact hstop none fun _ => h
      · next hlt =>
          have hat : u32 (iblock + done) = iblock + done := u32_of_lt (by omega)
          split
          · exact hstop _ fun h => by cases h
          · rw [hat]
            split
            · next m hm =>
                have hrun : ∀ l, iblock ≤ l →
                    l < iblock + (done + runOn d.file.map (extentLen o.rest) (iblock + done) m) →
                    d.file.has l := by
                  intro l hl hl'
                  by_cases hold : l < iblock + done
                  · exact hdone l hl hold
                  · have hrest := @map_of_lt_runOn d.file.map (extentLen o.rest) (iblock + done)
                      (l - (iblock + done)) m (by omega)
                    rw [show iblock + done + (l - (iblock + done)) = l by omega] at hrest
                    simp [File.has, hrest]
                have hle' : allocated ≤ done +
                    runOn d.file.map (extentLen o.rest) (iblock + done) m := by omega
                have hrest := ih hle' hrun fun r hr =>
                  ⟨⟨_, Nat.le_refl _, hle', hr, hrun, (Same.refl d).gains⟩, (Same.refl d).gains,
                    rfl, Nat.le_refl _, Nat.le_max_left _ _, fun _ => Same.refl d⟩
                obtain ⟨n, hn, hm⟩ := hrest.covered
                exact { hrest with covered := ⟨n, by omega, hm⟩ }
            · split
              · exact hstop _ fun h => by cases h
              · next d' halloc =>
                  obtain ⟨-, -, rfl⟩ := allocBlock_ok halloc
                  have htaken : Gains (· = iblock + done) d
                      ⟨d.file.assignUnwritten (iblock + done) o.fresh,
                        Function.update d.used o.fresh true, d.dev⟩ :=
                    ⟨fun _ h => (assignUnwritten_has ..).mpr (.inr h),
                      fun _ h => ((assignUnwritten_has ..).mp h).symm, rfl⟩
                  have hdone' : ∀ l, iblock ≤ l → l < iblock + (done + 1) →
                      (d.file.assignUnwritten (iblock + done) o.fresh).has l := by
                    intro l hl hl'
                    rw [assignUnwritten_has]
                    by_cases hlast : l = iblock + done
                    · exact .inl hlast
                    · exact .inr (hdone l hl (by omega))
                  have hrest := ih (d := ⟨d.file.assignUnwritten (iblock + done) o.fresh,
                      Function.update d.used o.fresh true, d.dev⟩) (Nat.succ_le_succ hle) hdone'
                    fun r hr => ⟨⟨done + 1, Nat.le_refl _, Nat.succ_le_succ hle, hr, hdone',
                      (Same.refl _).gains⟩, (Same.refl _).gains, rfl, Nat.le_refl _,
                      Nat.le_max_left _ _, fun _ => Same.refl _⟩
                  dsimp only
                  simp only [Nat.succ_eq_add_one] at hrest
                  generalize preallocate iblock count os (done + 1) (allocated + 1) _ = out at hrest ⊢
                  obtain ⟨m, hm, hsome, hcount, hcovered, hgains⟩ := hrest.covered
                  have hmore := hrest.more
                  have hbound := hrest.bound
                  exact ⟨⟨m, by omega, hsome, hcount, hcovered,
                      (htaken.mono fun l hl => by omega).trans hgains⟩,
                    (htaken.mono fun l hl => by omega).trans hrest.within, hrest.size, by omega,
                    by omega, fun h => by omega⟩

end Files

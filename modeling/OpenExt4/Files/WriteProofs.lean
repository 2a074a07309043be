import OpenExt4.Files.Sizes

set_option autoImplicit false

/-! # What the loop of a write leaves

The bytes counted are in the file as long as three things hold of every turn: the command of a
waiting run does not fail inside of the loop, the size accounts for the blocks that an append goes
behind, and a whole block does not go into a block that is unwritten. -/

namespace Files

open ByteDevice

variable {bs : BlockSize} {buf : ℕ → UInt8}

/-! ## Where the bytes of a write go -/

/-- The bytes of a file in blocks that lie one behind the other. -/
theorem addr_of_run {f : File} {lblk p n y : ℕ}
    (hmap : ∀ i < n, f.map (lblk + i) = some ⟨p + i, false⟩) (hy : y < n * bs.val) :
    f.addr bs (lblk * bs.val + y) = some (p * bs.val + y) := by
  have hdiv : (lblk * bs.val + y) / bs.val = lblk + y / bs.val := by
    rw [Nat.mul_comm, Nat.mul_add_div bs.pos]
  have hmod : (lblk * bs.val + y) % bs.val = y % bs.val := by rw [Nat.mul_comm, Nat.mul_add_mod]
  have hi : y / bs.val < n := Nat.div_lt_of_lt_mul (by rwa [Nat.mul_comm])
  refine File.addr_eq_some.mpr ⟨p + y / bs.val, ?_, ?_⟩
  · rw [hdiv, hmap _ hi]
  · rw [hmod, Nat.add_mul, Nat.add_assoc, Nat.mul_comm (y / bs.val), Nat.div_add_mod]

/-- The first `n` bytes of the data are in the file from `offset` on. -/
def Landed (bs : BlockSize) (buf : ℕ → UInt8) (offset n : ℕ) (d : Disk) : Prop :=
  ∀ k < n, ∃ a, d.file.addr bs (offset + k) = some a ∧ d.dev a = buf k

/-- The bytes of the file that the loop has gone past. -/
def Past (offset n : ℕ) (x : ℕ) : Prop := offset ≤ x ∧ x < offset + n

theorem Landed.keeps {offset n m : ℕ} {d d' : Disk} (h : Landed bs buf offset n d)
    (hnm : n ≤ m) (hkeeps : Keeps bs (Past offset m) d d') : Landed bs buf offset n d' := by
  intro k hk
  obtain ⟨a, ha, hdev⟩ := h k hk
  obtain ⟨ha', hdev'⟩ := hkeeps _ a ⟨Nat.le_add_right _ _, by omega⟩ ha
  exact ⟨a, ha', hdev'.trans hdev⟩

/-- A command for the bytes behind the landed ones leaves those; if it does not fail, its own have
    landed too. -/
theorem Landed.write_part {offset n a len : ℕ} {d : Disk} (h : Landed bs buf offset n d)
    (hok : d.Ok) (l : Landing Errno)
    (haddr : ∀ i < len, d.file.addr bs (offset + n + i) = some (a + i)) :
    Landed bs buf offset n { d with dev := (writeAt d.dev l a len fun i => buf (n + i)).2 } ∧
      ((writeAt d.dev l a len fun i => buf (n + i)).1 = none →
        Landed bs buf offset (n + len)
          { d with dev := (writeAt d.dev l a len fun i => buf (n + i)).2 }) := by
  have hbefore :
      Landed bs buf offset n { d with dev := (writeAt d.dev l a len fun i => buf (n + i)).2 } := by
    intro k hk
    obtain ⟨b, hb, hdev⟩ := h k hk
    refine ⟨b, hb, ?_⟩
    rw [← hdev]
    refine writeAt_outside ?_
    by_contra hin
    simp only [not_or, Nat.not_lt, Nat.not_le] at hin
    obtain ⟨i, rfl⟩ := Nat.exists_eq_add_of_le hin.1
    have hsame := hok.addr_inj hb (haddr i (by omega))
    omega
  refine ⟨hbefore, fun hlands k hk => ?_⟩
  by_cases hk' : k < n
  · exact hbefore k hk'
  · obtain ⟨i, rfl⟩ := Nat.exists_eq_add_of_le (Nat.le_of_not_lt hk')
    have hi : i < len := by omega
    exact ⟨_, Nat.add_assoc offset _ _ ▸ haddr i hi, writeAt_inside hlands hi⟩

/-- A command for unwritten blocks leaves what has landed; if it does not fail and the blocks are
    marked, the bytes in them have landed too. -/
theorem Landed.write_unwritten {offset n lblk blocks : ℕ} {m : Mapping} {d : Disk}
    {g : ℕ → UInt8} (h : Landed bs buf offset n d) (inOff len : ℕ) (hok : d.Ok) (l : Landing Errno)
    (hmap : ∀ i < blocks, d.file.map (lblk + i) = some ⟨m.fblk + i, true⟩)
    (hpos : lblk * bs.val + inOff = offset + n) (hlen : inOff + len ≤ blocks * bs.val)
    (hg : ∀ i < len, g (inOff + i) = buf (n + i)) :
    Landed bs buf offset n
        { d with dev := (writeAt d.dev l (m.fblk * bs.val) (blocks * bs.val) g).2 } ∧
      ((writeAt d.dev l (m.fblk * bs.val) (blocks * bs.val) g).1 = none →
        Landed bs buf offset (n + len)
          ⟨d.file.markRun lblk blocks, d.used,
            (writeAt d.dev l (m.fblk * bs.val) (blocks * bs.val) g).2⟩) := by
  have hbefore : Landed bs buf offset n
      { d with dev := (writeAt d.dev l (m.fblk * bs.val) (blocks * bs.val) g).2 } := by
    intro k hk
    obtain ⟨b, hb, hdev⟩ := h k hk
    exact ⟨b, hb, (writeAt_outside (hok.put_unwritten hmap hb)).trans hdev⟩
  refine ⟨hbefore, fun hlands k hk => ?_⟩
  by_cases hk' : k < n
  · obtain ⟨b, hb, hdev⟩ := hbefore k hk'
    exact ⟨b, markRun_addr hb, hdev⟩
  · obtain ⟨i, rfl⟩ := Nat.exists_eq_add_of_le (Nat.le_of_not_lt hk')
    have hi : i < len := by omega
    have hin : inOff + i < blocks * bs.val := by omega
    have haddr := addr_of_run (f := d.file.markRun lblk blocks) (p := m.fblk)
      (fun j hj => markRun_map_lt hj (hmap j hj)) hin
    rw [← Nat.add_assoc, hpos, Nat.add_assoc] at haddr
    refine ⟨_, haddr, ?_⟩
    dsimp only
    rw [writeAt_inside hlands hin, hg i hi]

/-- What has landed and what waits for its command. -/
structure Inv (bs : BlockSize) (buf : ℕ → UInt8) (offset : ℕ) (w : Wr) : Prop where
  ok : w.disk.Ok
  counted : w.written + w.runBytes = w.src
  run : w.runBytes = w.runBlocks * bs.val
  runSrc : w.runBlocks ≠ 0 → w.runSrc = w.written
  landed : Landed bs buf offset w.written w.disk
  waiting : ∀ i < w.runBytes,
    w.disk.file.addr bs (offset + w.written + i) = some (w.runFirst * bs.val + i)

theorem Inv.setDisk {offset : ℕ} {w : Wr} (h : Inv bs buf offset w) {d : Disk} (n : ℕ)
    (hstep : Step bs (Past offset w.src) w.disk d) : Inv bs buf offset (w.setDisk d n) where
  ok := hstep.ok
  counted := h.counted
  run := h.run
  runSrc := h.runSrc
  landed := h.landed.keeps (h.counted ▸ Nat.le_add_right _ _) hstep.keeps
  waiting i hi := by
    have hpast : Past offset w.src (offset + w.written + i) :=
      ⟨by omega, by have := h.counted; simp only [Wr.setDisk] at hi; omega⟩
    exact (hstep.keeps _ _ hpast (h.waiting i hi)).1

/-! ## The waiting run -/

/-- The command of the waiting run, whether it fails or not, leaves what has landed; if it does not
    fail, the run has landed. -/
theorem Inv.flushRun {offset : ℕ} {w : Wr} (h : Inv bs buf offset w) (hshort : w.src < 2 ^ 32)
    (l : Landing Errno) :
    ∃ dev, (flushRun bs buf l w).2 = { w with disk := { w.disk with dev := dev }, runBlocks := 0 } ∧
      Landed bs buf offset w.written { w.disk with dev := dev } ∧
      ((flushRun bs buf l w).1 = none → Landed bs buf offset w.src { w.disk with dev := dev }) := by
  have hcounted := h.counted
  have hrun := h.run
  by_cases hnone : w.runBlocks = 0
  · rw [hnone, Nat.zero_mul] at hrun
    rw [hrun, Nat.add_zero] at hcounted
    refine ⟨w.disk.dev, ?_, h.landed, fun _ => hcounted ▸ h.landed⟩
    simp only [Files.flushRun]
    rw [if_pos hnone, ← hnone]
  · have hlen : u32 (w.runBlocks * bs.val) = w.runBytes := by
      rw [← hrun]
      exact u32_of_lt (by omega)
    have hsrc := h.runSrc hnone
    simp only [Files.flushRun, hlen, hsrc]
    rw [if_neg hnone]
    obtain ⟨hbefore, hafter⟩ := h.landed.write_part h.ok l h.waiting
    exact ⟨_, rfl, hbefore, fun hok => hcounted ▸ hafter hok⟩

/-- Inside of the loop the run is written and counted, if its command does not fail. -/
theorem Inv.flushPending {offset : ℕ} {w : Wr} (h : Inv bs buf offset w) (hshort : w.src < 2 ^ 32)
    {l : Landing Errno} (hl : w.runBlocks = 0 ∨ l = .lands) :
    ∃ dev, flushPending bs buf l w = .ok
        { w with
          disk := { w.disk with dev := dev }, runBlocks := 0, runBytes := 0, written := w.src } ∧
      Landed bs buf offset w.src { w.disk with dev := dev } := by
  obtain ⟨dev, hw, -, hlanded⟩ := h.flushRun hshort l
  have hok : (Files.flushRun bs buf l w).1 = none := by
    simp only [Files.flushRun]
    rcases hl with hnone | rfl
    · rw [if_pos hnone]
    · split
      · rfl
      · rfl
  refine ⟨dev, ?_, hlanded hok⟩
  have hpair : Files.flushRun bs buf l w =
      (none, { w with disk := { w.disk with dev := dev }, runBlocks := 0 }) :=
    Prod.ext hok hw
  simp only [Files.flushPending, hpair, h.counted]

/-! ## Finding the block of a turn -/

/-- Finding the block leaves the bytes the loop has gone past; the block it gives is at `lblk`, and
    written unless `tail`. -/
def Reaches (bs : BlockSize) (S : ℕ → Prop) (w : Wr) (lblk : ℕ) (tail : Bool) :
    Except (Errno × Wr) (ℕ × Wr) → Prop
  | .error (_, w') => ∃ d n, w' = w.setDisk d n ∧ Step bs S w.disk d
  | .ok (p, w') => ∃ d n, w' = w.setDisk d n ∧ Step bs S w.disk d ∧
      (p ≠ 0 → d.file.map lblk = some ⟨p, tail⟩)

theorem Reaches.from {S : ℕ → Prop} {w : Wr} {d : Disk} {n lblk : ℕ} {tail : Bool}
    {out : Except (Errno × Wr) (ℕ × Wr)} (hstep : Step bs S w.disk d)
    (h : Reaches bs S (w.setDisk d n) lblk tail out) : Reaches bs S w lblk tail out := by
  cases out with
  | error e =>
      obtain ⟨d', n', hw, hstep'⟩ := h
      exact ⟨d', n', hw, hstep.trans hstep'⟩
  | ok out =>
      obtain ⟨d', n', hw, hstep', hmap⟩ := h
      exact ⟨d', n', hw, hstep.trans hstep', hmap⟩

/-- The walk past the end, if the size accounts for the blocks it starts behind. -/
theorem appendTo_reaches {S : ℕ → Prop} {lblk fblk : ℕ} {os : List Blocks} {w : Wr}
    (hok : w.disk.Ok) (hleft : 0 < w.remaining) (hroom : lblk + blocksFor bs w.remaining < 2 ^ 32)
    (hfits : w.haveBlocks < 2 ^ 32) (hsync : blocksFor bs w.disk.file.size = w.haveBlocks)
    (hS : w.disk.file.extents = false → ∀ x, S x → x / bs.val < w.haveBlocks)
    (hdone : lblk < w.haveBlocks → w.disk.file.map lblk = some ⟨fblk, false⟩) :
    Reaches bs S w lblk false (appendTo bs lblk os fblk w) := by
  induction os generalizing fblk w with
  | nil =>
      simp only [appendTo]
      split
      · next hlt => exact ⟨w.disk, w.haveBlocks, rfl, Step.refl hok, fun _ => hdone hlt⟩
      · exact ⟨w.disk, w.haveBlocks, rfl, Step.refl hok⟩
  | cons o os ih =>
      simp only [appendTo]
      split
      · next hlt => exact ⟨w.disk, w.haveBlocks, rfl, Step.refl hok, fun _ => hdone hlt⟩
      · next hle =>
          have hpos : 0 < blocksFor bs w.remaining := by
            by_contra hzero
            have := le_blocksFor_mul bs w.remaining
            simp only [Nat.not_lt, Nat.le_zero] at hzero
            rw [hzero, Nat.zero_mul] at this
            omega
          generalize hwant : (if w.haveBlocks = lblk
            then max 1 (min (blocksFor bs w.remaining) (2 ^ 32 - 1)) else 1) = want
          have hbound : 0 < want ∧ w.haveBlocks + want < 2 ^ 32 ∧
              (w.haveBlocks ≠ lblk → want = 1) := by
            rw [← hwant]
            split <;> omega
          have happends := hok.appends (S := S) o hsync hfits hbound.1
            fun hext x hx => Nat.ne_of_lt (hS hext x hx)
          cases hout : appendInodeDblkRange bs w.disk o want with
          | error e =>
              rw [hout] at happends
              exact ⟨e.2, w.haveBlocks, rfl, happends⟩
          | ok out =>
              obtain ⟨p, got, d⟩ := out
              rw [hout] at happends
              obtain ⟨hstep, hsize, -, hmap⟩ := happends
              obtain ⟨hgot, hmax⟩ := append_count hbound.1 hout
              dsimp only
              rw [u32_of_lt (by omega)]
              refine Reaches.from (n := w.haveBlocks + got) hstep
                (ih hstep.ok hleft hroom ?_ hsize ?_ ?_)
              · simp only [Wr.setDisk]
                omega
              · intro hext x hx
                have := hS (hstep.extents ▸ hext) x hx
                simp only [Wr.setDisk]
                omega
              · intro hlt
                simp only [Wr.setDisk] at hlt ⊢
                -- the walk ends with the append at the block itself
                have hhere : w.haveBlocks = lblk := by
                  by_contra hne
                  have := hbound.2.2 hne
                  omega
                simpa [hhere] using hmap 0 hgot

theorem pastEnd_some {t : Turn} {w : Wr} {lblk : ℕ} {m : Mapping}
    (h : pastEnd t w lblk = some m) : w.disk.file.map lblk = some m := by
  simp only [pastEnd] at h
  split at h
  · obtain ⟨r, hr, rfl⟩ := Option.map_eq_some_iff.mp h
    simp only [mapRange] at hr
    split at hr
    · cases hr
    · split at hr
      · next rest m' _ hm =>
          split at hr
          · rw [← Option.some.inj hr]
            exact hm
          · cases hr
      · cases hr
  · cases h

theorem locate_reaches {S : ℕ → Prop} {t : Turn} {lblk : ℕ} {w : Wr} (hok : w.disk.Ok)
    (hleft : 0 < w.remaining) (hroom : lblk + blocksFor bs w.remaining < 2 ^ 32)
    (hfits : w.haveBlocks < 2 ^ 32)
    (hsync : pastEnd t w lblk = none → w.haveBlocks ≤ lblk →
      blocksFor bs w.disk.file.size = w.haveBlocks)
    (hS : w.disk.file.extents = false → ∀ x, S x → x / bs.val < w.haveBlocks) :
    Reaches bs S w lblk ((pastEnd t w lblk).any (·.unwritten)) (locate bs t w lblk) := by
  simp only [locate]
  cases hpast : pastEnd t w lblk with
  | some m => exact ⟨w.disk, w.haveBlocks, rfl, Step.refl hok, fun _ => pastEnd_some hpast⟩
  | none =>
      dsimp only [Option.any_none]
      split
      · have hfinds := hok.finds bs S t.init lblk
        cases hinit : initInodeDblkIdx bs w.disk t.init lblk with
        | error e =>
            rw [hinit] at hfinds
            exact ⟨e.2, w.haveBlocks, rfl, hfinds.1⟩
        | ok out =>
            rw [hinit] at hfinds
            exact ⟨out.2, w.haveBlocks, rfl, hfinds.1, hfinds.2.2⟩
      · next hle =>
          exact appendTo_reaches hok hleft hroom hfits (hsync hpast (Nat.le_of_not_lt hle)) hS
            fun hlt => absurd hlt hle

/-! ## A turn -/

/-- The turn does not go wrong: the command of a waiting run does not fail; an append goes behind the
    blocks that the size accounts for; and a whole block does not go into an unwritten one. -/
structure Sound (bs : BlockSize) (t : Turn) (w : Wr) : Prop where
  flush : w.runBlocks = 0 ∨ t.flush = .lands
  sync : fastRange bs t w = none → pastEnd t w (w.lblk bs) = none → w.haveBlocks ≤ w.lblk bs →
    blocksFor bs w.disk.file.size = w.haveBlocks
  tail : fastRange bs t w = none → w.inOff bs = 0 → w.chunk bs = bs.val →
    ∀ m, pastEnd t w (w.lblk bs) = some m → m.unwritten = false

/-- With nothing waiting, all that counts is what has landed. -/
theorem Inv.flushed {offset : ℕ} {w : Wr} (hok : w.disk.Ok)
    (hlanded : Landed bs buf offset w.src w.disk) (hblocks : w.runBlocks = 0)
    (hbytes : w.runBytes = 0) (hwritten : w.written = w.src) : Inv bs buf offset w where
  ok := hok
  counted := by rw [hwritten, hbytes, Nat.add_zero]
  run := by rw [hbytes, hblocks, Nat.zero_mul]
  runSrc hne := absurd hblocks hne
  landed := hwritten ▸ hlanded
  waiting i hi := by rw [hbytes] at hi; exact absurd hi (Nat.not_lt_zero i)

/-- What a part of a turn leaves: the invariant, with the data not gone on if it fails. -/
def Leaves (bs : BlockSize) (buf : ℕ → UInt8) (offset src n : ℕ) : Except (Errno × Wr) Wr → Prop
  | .error (_, w') => Inv bs buf offset w' ∧ w'.src = src
  | .ok w' => Inv bs buf offset (w'.advance n) ∧ w'.src = src

theorem fastTurn_leaves {offset lblk n : ℕ} {m : Mapping} {t : Turn} {w : Wr}
    (h : Inv bs buf offset w) (hshort : w.src < 2 ^ 32)
    (hflush : w.runBlocks = 0 ∨ t.flush = .lands) (hlen : n * bs.val < 2 ^ 32)
    (hpos : lblk * bs.val = offset + w.src)
    (hmap : ∀ i < n, w.disk.file.map (lblk + i) = some ⟨m.fblk + i, true⟩) :
    match fastTurn bs buf t w lblk m n with
    | .error (_, w') => Inv bs buf offset w' ∧ w'.src = w.src
    | .ok w' => Inv bs buf offset w' := by
  obtain ⟨dev, hpending, hlanded⟩ := h.flushPending hshort hflush
  simp only [fastTurn, hpending, u32_of_lt hlen]
  have hok : Disk.Ok { w.disk with dev := dev } := h.ok.dev dev
  obtain ⟨hbefore, hafter⟩ := hlanded.write_unwritten 0 (n * bs.val)
    (g := fun i => buf (w.src + i)) hok t.data hmap hpos (by omega) (fun i _ => by rw [Nat.zero_add])
  dsimp only at hbefore hafter
  cases hwrite : writeAt dev t.data (m.fblk * bs.val) (n * bs.val) fun i => buf (w.src + i) with
  | mk e dev' =>
      rw [hwrite] at hbefore hafter
      cases e with
      | some e => exact ⟨Inv.flushed (h.ok.dev dev') hbefore rfl rfl rfl, rfl⟩
      | none =>
          dsimp only
          cases hmark : t.mark with
          | some e => exact ⟨Inv.flushed (h.ok.dev dev') hbefore rfl rfl rfl, rfl⟩
          | none => exact Inv.flushed (h.ok.markRun lblk n dev') (hafter rfl) rfl rfl rfl

theorem queueBlock_leaves {offset lblk fblk : ℕ} {t : Turn} {w : Wr} (h : Inv bs buf offset w)
    (hshort : w.src < 2 ^ 32) (hflush : w.runBlocks = 0 ∨ t.flush = .lands)
    (hpos : lblk * bs.val = offset + w.src) (hmap : w.disk.file.map lblk = some ⟨fblk, false⟩) :
    Leaves bs buf offset w.src bs.val (queueBlock bs buf t w fblk) := by
  have haddr : ∀ i < bs.val, w.disk.file.addr bs (offset + w.src + i)
      = some (fblk * bs.val + i) := by
    intro i hi
    rw [← hpos]
    refine addr_of_run (n := 1) (fun j hj => ?_) (by rwa [Nat.one_mul])
    obtain rfl : j = 0 := by omega
    exact hmap
  have hcounted := h.counted
  simp only [queueBlock]
  split
  · next hnext =>
      have hrun := h.run
      refine ⟨⟨h.ok, ?_, ?_, fun _ => h.runSrc hnext.1, h.landed, fun i hi => ?_⟩, rfl⟩
      · simp only [Wr.advance]
        omega
      · simp only [Wr.advance]
        rw [Nat.add_mul, Nat.one_mul, hrun]
      · simp only [Wr.advance] at hi ⊢
        by_cases hold : i < w.runBytes
        · exact h.waiting i hold
        · obtain ⟨j, rfl⟩ := Nat.exists_eq_add_of_le (Nat.le_of_not_lt hold)
          have hj := haddr j (by omega)
          rw [← hcounted, ← Nat.add_assoc] at hj
          rw [← Nat.add_assoc, hj, hnext.2, Nat.add_mul, ← hrun, Nat.add_assoc]
  · obtain ⟨dev, hpending, hlanded⟩ := h.flushPending hshort hflush
    rw [hpending]
    refine ⟨⟨h.ok.dev dev, rfl, (Nat.one_mul _).symm, fun _ => rfl, hlanded, fun i hi => ?_⟩, rfl⟩
    exact haddr i hi

theorem writePartial_leaves {offset lblk fblk inOff chunk : ℕ} {tail : Bool} {t : Turn} {w : Wr}
    (h : Inv bs buf offset w) (hshort : w.src < 2 ^ 32)
    (hflush : w.runBlocks = 0 ∨ t.flush = .lands) (hpos : lblk * bs.val + inOff = offset + w.src)
    (hchunk : inOff + chunk ≤ bs.val) (hmap : w.disk.file.map lblk = some ⟨fblk, tail⟩) :
    Leaves bs buf offset w.src chunk (writePartial bs buf t w lblk fblk inOff chunk tail) := by
  obtain ⟨dev, hpending, hlanded⟩ := h.flushPending hshort hflush
  simp only [writePartial, hpending]
  have hok : Disk.Ok { w.disk with dev := dev } := h.ok.dev dev
  have hone : ∀ i < 1, w.disk.file.map (lblk + i) = some ⟨fblk + i, tail⟩ := by
    intro i hi
    obtain rfl : i = 0 := by omega
    exact hmap
  split
  · next htail =>
      subst htail
      split
      · exact ⟨Inv.flushed hok hlanded rfl rfl rfl, rfl⟩
      · generalize hg : (fun i =>
          if inOff ≤ i ∧ i < inOff + chunk then buf (w.src + (i - inOff)) else 0) = g
        have hdata : ∀ i < chunk, g (inOff + i) = buf (w.src + i) := by
          intro i hi
          rw [← hg]
          dsimp only
          rw [if_pos ⟨Nat.le_add_right _ _, Nat.add_lt_add_left hi _⟩, Nat.add_sub_cancel_left]
        have hwritten := hlanded.write_unwritten inOff chunk (m := ⟨fblk, true⟩) hok t.data hone
          hpos (by omega) hdata
        rw [Nat.one_mul] at hwritten
        obtain ⟨hbefore, hafter⟩ := hwritten
        dsimp only at hbefore hafter
        cases hwrite : writeAt dev t.data (fblk * bs.val) bs.val g with
        | mk e dev' =>
            rw [hwrite] at hbefore hafter
            cases e with
            | some e => exact ⟨Inv.flushed (h.ok.dev dev') hbefore rfl rfl rfl, rfl⟩
            | none =>
                dsimp only
                cases hmark : t.mark with
                | some e => exact ⟨Inv.flushed (h.ok.dev dev') hbefore rfl rfl rfl, rfl⟩
                | none =>
                    exact ⟨Inv.flushed (h.ok.markRun lblk 1 dev') (hafter rfl) rfl rfl rfl, rfl⟩
  · next htail =>
      simp only [Bool.not_eq_true] at htail
      subst htail
      have haddr : ∀ i < chunk, w.disk.file.addr bs (offset + w.src + i)
          = some (fblk * bs.val + inOff + i) := by
        intro i hi
        rw [← hpos, Nat.add_assoc, Nat.add_assoc]
        exact addr_of_run hone (by omega)
      obtain ⟨hbefore, hafter⟩ := hlanded.write_part hok t.data haddr
      dsimp only at hbefore hafter
      cases hwrite : writeAt dev t.data (fblk * bs.val + inOff) chunk fun i => buf (w.src + i) with
      | mk e dev' =>
          rw [hwrite] at hbefore hafter
          cases e with
          | some e => exact ⟨Inv.flushed (h.ok.dev dev') hbefore rfl rfl rfl, rfl⟩
          | none => exact ⟨Inv.flushed (h.ok.dev dev') (hafter rfl) rfl rfl rfl, rfl⟩

/-- Blocks behind the ones the loop takes the file to have are found by its extents only: with block
    pointers the loop has not gone past any. -/
def Pointed (bs : BlockSize) (offset : ℕ) (w : Wr) : Prop :=
  w.disk.file.extents = false → ∀ x, Past offset w.src x → x / bs.val < w.haveBlocks

theorem blockTurn_leaves {offset count old : ℕ} {t : Turn} {w : Wr} (h : Inv bs buf offset w)
    (htrack : Track bs offset count old w) (hnum : Numbered bs offset count old)
    (hleft : 0 < w.remaining) (hshort : count < 2 ^ 32) (hpointed : Pointed bs offset w)
    (hsound : Sound bs t w) (hslow : fastRange bs t w = none) :
    match blockTurn bs buf t w with
    | .error (_, w') => Inv bs buf offset w' ∧ w'.src = w.src
    | .ok w' => Inv bs buf offset w' := by
  have hsrc : w.src < 2 ^ 32 := by have := htrack.left; omega
  have hroom := htrack.numbered hnum
  rw [← htrack.lblk hnum] at hroom
  have hpos := htrack.pos_eq hnum
  rw [htrack.pos] at hpos
  have hreaches := locate_reaches (S := Past offset w.src) (t := t) h.ok hleft hroom
    htrack.fits (hsound.sync hslow) hpointed
  simp only [blockTurn]
  generalize htail : (pastEnd t w (w.lblk bs)).any (·.unwritten) = tail at hreaches
  cases hlocate : locate bs t w (w.lblk bs) with
  | error e =>
      rw [hlocate] at hreaches
      obtain ⟨d, n, hw, hstep⟩ := hreaches
      dsimp only
      rw [hw]
      exact ⟨h.setDisk n hstep, rfl⟩
  | ok out =>
      obtain ⟨fblk, w₁⟩ := out
      rw [hlocate] at hreaches
      obtain ⟨d, n, rfl, hstep, hmap⟩ := hreaches
      have hinv := h.setDisk n hstep
      dsimp only
      by_cases hhole : fblk = 0
      · rw [if_pos hhole]
        exact ⟨hinv, rfl⟩
      · rw [if_neg hhole]
        have hblock := hmap hhole
        have hleaves : Leaves bs buf offset w.src (w.chunk bs)
            (if w.inOff bs = 0 ∧ w.chunk bs = bs.val then
              queueBlock bs buf t (w.setDisk d n) fblk
            else writePartial bs buf t (w.setDisk d n) (w.lblk bs) fblk (w.inOff bs) (w.chunk bs)
              tail) := by
          split
          · next hwhole =>
              have hwritten : tail = false := by
                rw [← htail]
                cases hpast : pastEnd t w (w.lblk bs) with
                | none => rfl
                | some m => exact hsound.tail hslow hwhole.1 hwhole.2 m hpast
              rw [hwhole.2]
              rw [hwhole.1, Nat.add_zero] at hpos
              exact queueBlock_leaves hinv hsrc hsound.flush hpos (hwritten ▸ hblock)
          · exact writePartial_leaves hinv hsrc hsound.flush hpos (w.chunk_le_block bs) hblock
        generalize hdone : (if w.inOff bs = 0 ∧ w.chunk bs = bs.val then
              queueBlock bs buf t (w.setDisk d n) fblk
            else writePartial bs buf t (w.setDisk d n) (w.lblk bs) fblk (w.inOff bs) (w.chunk bs)
              tail) = done at hleaves
        cases done with
        | error e => exact hleaves
        | ok w₂ => exact hleaves.1

/-- A turn that does not go wrong leaves the invariant, also if it fails. -/
theorem Inv.step {offset count old : ℕ} {t : Turn} {w : Wr} (h : Inv bs buf offset w)
    (htrack : Track bs offset count old w) (hnum : Numbered bs offset count old)
    (hleft : 0 < w.remaining) (hshort : count < 2 ^ 32) (hpointed : Pointed bs offset w)
    (hsound : Sound bs t w) :
    match turn bs buf t w with
    | .error (_, w') => Inv bs buf offset w' ∧ w'.src = w.src
    | .ok w' => Inv bs buf offset w' := by
  simp only [turn]
  cases hfast : fastRange bs t w with
  | none => exact blockTurn_leaves h htrack hnum hleft hshort hpointed hsound hfast
  | some r =>
      obtain ⟨hin, -, -, hlen, -, -, hmap⟩ := fastRange_some hfast
      have hpos := htrack.pos_eq hnum
      rw [hin, Nat.add_zero, htrack.pos] at hpos
      have hsrc : w.src < 2 ^ 32 := by have := htrack.left; omega
      exact fastTurn_leaves h hsrc hsound.flush hlen hpos hmap

/-! ## Any turn -/

/-- Whatever a turn does, its file is sound, and the inode it was. -/
def Sane (bs : BlockSize) (d : Disk) : Except (Errno × Wr) Wr → Prop
  | .error (_, w') => Step bs (fun _ => False) d w'.disk
  | .ok w' => Step bs (fun _ => False) d w'.disk

theorem Step.dev {S : ℕ → Prop} {d d' : Disk} (h : Step bs S d d') (dev : ℕ → UInt8) :
    Step bs (fun _ => False) d { d' with dev := dev } :=
  ⟨h.ok.dev dev, fun _ _ hx => hx.elim, h.inode, h.fresh, h.mono⟩

theorem Step.mark {S : ℕ → Prop} {d d' : Disk} (h : Step bs S d d') (lblk n : ℕ)
    (dev : ℕ → UInt8) :
    Step bs (fun _ => False) d ⟨d'.file.markRun lblk n, d'.used, dev⟩ where
  ok := h.ok.markRun lblk n dev
  keeps := fun _ _ hx => hx.elim
  inode := by
    simp only [File.markRun]
    rw [h.inode]
  fresh l m hl := by
    obtain ⟨m', hm', hfblk, -⟩ := markRun_map_some hl
    exact hfblk ▸ h.fresh l m' hm'
  mono := h.mono

theorem flushPending_disk (bs : BlockSize) (buf : ℕ → UInt8) (l : Landing Errno) (w : Wr) :
    (∃ e w', flushPending bs buf l w = .error (e, w') ∧
        ∃ dev, w'.disk = { w.disk with dev := dev }) ∨
      ∃ w', flushPending bs buf l w = .ok w' ∧ ∃ dev, w'.disk = { w.disk with dev := dev } := by
  simp only [flushPending]
  cases hflush : flushRun bs buf l w with
  | mk r w' =>
      have hdev : ∃ dev, w'.disk = { w.disk with dev := dev } := by
        simp only [flushRun] at hflush
        split at hflush
        · obtain ⟨-, rfl⟩ := Prod.mk.inj hflush
          exact ⟨w.disk.dev, rfl⟩
        · obtain ⟨-, rfl⟩ := Prod.mk.inj hflush
          exact ⟨_, rfl⟩
      cases r with
      | some e => exact .inl ⟨e, w', rfl, hdev⟩
      | none => exact .inr ⟨_, rfl, hdev⟩

theorem fastTurn_sane {d : Disk} {t : Turn} {w : Wr} {lblk n : ℕ} {m : Mapping}
    (h : Step bs (fun _ => False) d w.disk) : Sane bs d (fastTurn bs buf t w lblk m n) := by
  simp only [fastTurn]
  rcases flushPending_disk bs buf t.flush w with
    ⟨e, w₁, hflush, dev, hdisk⟩ | ⟨w₁, hflush, dev, hdisk⟩
  · rw [hflush]
    simp only [Sane, hdisk]
    exact h.dev dev
  · rw [hflush]
    dsimp only
    rw [hdisk]
    cases hwrite : writeAt dev t.data (m.fblk * bs.val) (u32 (n * bs.val))
        (fun i => buf (w₁.src + i)) with
    | mk e dev' =>
        cases e with
        | some e => exact h.dev dev'
        | none =>
            cases hmark : t.mark with
            | some e => exact h.dev dev'
            | none => exact h.mark lblk n dev'

theorem queueBlock_sane {d : Disk} {t : Turn} {w : Wr} {fblk : ℕ}
    (h : Step bs (fun _ => False) d w.disk) : Sane bs d (queueBlock bs buf t w fblk) := by
  simp only [queueBlock]
  split
  · exact h
  · rcases flushPending_disk bs buf t.flush w with
      ⟨e, w₁, hflush, dev, hdisk⟩ | ⟨w₁, hflush, dev, hdisk⟩
    · rw [hflush]
      simp only [Sane, hdisk]
      exact h.dev dev
    · rw [hflush]
      simp only [Sane, hdisk]
      exact h.dev dev

theorem writePartial_sane {d : Disk} {t : Turn} {w : Wr} {lblk fblk inOff chunk : ℕ} {tail : Bool}
    (h : Step bs (fun _ => False) d w.disk) :
    Sane bs d (writePartial bs buf t w lblk fblk inOff chunk tail) := by
  simp only [writePartial]
  rcases flushPending_disk bs buf t.flush w with
    ⟨e, w₁, hflush, dev, hdisk⟩ | ⟨w₁, hflush, dev, hdisk⟩
  · rw [hflush]
    simp only [Sane, hdisk]
    exact h.dev dev
  · rw [hflush]
    dsimp only
    rw [hdisk]
    split
    · split
      · simp only [Sane, hdisk]
        exact h.dev dev
      · generalize writeAt dev t.data _ _ _ = out
        obtain ⟨e, dev'⟩ := out
        cases e with
        | some e => exact h.dev dev'
        | none =>
            cases hmark : t.mark with
            | some e => exact h.dev dev'
            | none => exact h.mark lblk 1 dev'
    · generalize writeAt dev t.data _ _ _ = out
      obtain ⟨e, dev'⟩ := out
      cases e with
      | some e => exact h.dev dev'
      | none => exact h.dev dev'

theorem appendTo_sane {d : Disk} {lblk fblk : ℕ} {os : List Blocks} {w : Wr}
    (h : Step bs (fun _ => False) d w.disk) :
    match appendTo bs lblk os fblk w with
    | .error (_, w') => Step bs (fun _ => False) d w'.disk
    | .ok (_, w') => Step bs (fun _ => False) d w'.disk := by
  induction os generalizing fblk w with
  | nil =>
      simp only [appendTo]
      by_cases hlt : lblk < w.haveBlocks
      · rw [if_pos hlt]
        exact h
      · rw [if_neg hlt]
        exact h
  | cons o os ih =>
      simp only [appendTo]
      by_cases hlt : lblk < w.haveBlocks
      · rw [if_pos hlt]
        exact h
      · rw [if_neg hlt]
        generalize hwant : (if w.haveBlocks = lblk
          then max 1 (min (blocksFor bs w.remaining) (2 ^ 32 - 1)) else 1) = want
        have hpos : 0 < want := by
          rw [← hwant]
          split <;> omega
        have hstep := h.ok.append_step bs o hpos
        cases hout : appendInodeDblkRange bs w.disk o want with
        | error e =>
            rw [hout] at hstep
            exact h.trans hstep
        | ok out =>
            rw [hout] at hstep
            exact ih (h.trans hstep)

theorem locate_sane {d : Disk} (t : Turn) (lblk : ℕ) {w : Wr}
    (h : Step bs (fun _ => False) d w.disk) :
    match locate bs t w lblk with
    | .error (_, w') => Step bs (fun _ => False) d w'.disk
    | .ok (_, w') => Step bs (fun _ => False) d w'.disk := by
  simp only [locate]
  cases pastEnd t w lblk with
  | some m => exact h
  | none =>
      dsimp only
      by_cases hlt : lblk < w.haveBlocks
      · rw [if_pos hlt]
        have hfinds := h.ok.finds bs (fun _ => False) t.init lblk
        cases hinit : initInodeDblkIdx bs w.disk t.init lblk with
        | error e =>
            rw [hinit] at hfinds
            exact h.trans hfinds.1
        | ok out =>
            rw [hinit] at hfinds
            exact h.trans hfinds.1
      · rw [if_neg hlt]
        exact appendTo_sane h

theorem turn_sane (buf : ℕ → UInt8) (t : Turn) {d : Disk} {w : Wr} (h : Step bs (fun _ => False) d w.disk) :
    Sane bs d (turn bs buf t w) := by
  simp only [turn]
  cases fastRange bs t w with
  | some r => exact fastTurn_sane h
  | none =>
      simp only [blockTurn]
      have hlocate := locate_sane t (w.lblk bs) h
      cases hout : locate bs t w (w.lblk bs) with
      | error e =>
          rw [hout] at hlocate
          exact hlocate
      | ok out =>
          rw [hout] at hlocate
          dsimp only
          by_cases hhole : out.1 = 0
          · rw [if_pos hhole]
            exact hlocate
          · rw [if_neg hhole]
            have hdone : Sane bs d
                (if w.inOff bs = 0 ∧ w.chunk bs = bs.val then queueBlock bs buf t out.2 out.1
                else writePartial bs buf t out.2 (w.lblk bs) out.1 (w.inOff bs) (w.chunk bs)
                  ((pastEnd t w (w.lblk bs)).any (·.unwritten))) := by
              split
              · exact queueBlock_sane hlocate
              · exact writePartial_sane hlocate
            split
            · next e he =>
                rw [he] at hdone
                exact hdone
            · next w₂ he =>
                rw [he] at hdone
                exact hdone

/-! ## The loop -/

theorem Pointed.step {offset count old : ℕ} {t : Turn} {w w' : Wr} (h : Pointed bs offset w)
    (hok : w.disk.Ok) (htrack : Track bs offset count old w) (hnum : Numbered bs offset count old)
    (hleft : 0 < w.remaining) (hturn : turn bs buf t w = .ok w') : Pointed bs offset w' := by
  intro hext x hx
  have hsane : Sane bs w.disk (turn bs buf t w) := turn_sane buf t (Step.refl hok)
  rw [hturn] at hsane
  have hext' : w.disk.file.extents = false := hsane.extents ▸ hext
  simp only [turn] at hturn
  split at hturn
  · next m n hfast =>
      obtain ⟨-, -, -, -, hwith, -⟩ := fastRange_some hfast
      rw [hext'] at hwith
      cases hwith
  · obtain ⟨w₁, rfl, htook, -, hgets⟩ := blockTurn_took htrack hnum hleft hturn
    have hlt := hgets hext'
    simp only [Past, Wr.advance, htook.src] at hx ⊢
    by_cases hold : x < offset + w.src
    · exact Nat.lt_of_lt_of_le (h hext' x ⟨hx.1, hold⟩) htook.blocks
    · have hblock := w.chunk_le_block bs
      have hpos := htrack.pos_eq hnum
      rw [htrack.pos] at hpos
      refine Nat.lt_of_le_of_lt (Nat.lt_succ_iff.mp (Nat.div_lt_of_lt_mul ?_)) hlt
      rw [Nat.mul_comm, Nat.succ_mul]
      omega

/-- Each turn that the loop takes meets `P`. -/
def Along (bs : BlockSize) (buf : ℕ → UInt8) (P : Turn → Wr → Prop) : List Turn → Wr → Prop
  | [], _ => True
  | t :: ts, w =>
      w.remaining = 0 ∨ (P t w ∧ ∀ w', turn bs buf t w = .ok w' → Along bs buf P ts w')

/-- A loop without a turn that goes wrong leaves the invariant, also if it fails. -/
theorem Inv.loop {offset count old : ℕ} {ts : List Turn} {w : Wr} (h : Inv bs buf offset w)
    (htrack : Track bs offset count old w) (hnum : Numbered bs offset count old)
    (hshort : count < 2 ^ 32) (hpointed : Pointed bs offset w)
    (hsound : Along bs buf (Sound bs) ts w) :
    Inv bs buf offset (writeLoop bs buf ts w).2 ∧ (writeLoop bs buf ts w).2.src ≤ count := by
  have hsrc : w.src ≤ count := htrack.left ▸ Nat.le_add_right _ _
  induction ts generalizing w with
  | nil =>
      simp only [writeLoop]
      split
      · exact ⟨h, hsrc⟩
      · exact ⟨h, hsrc⟩
  | cons t ts ih =>
      simp only [writeLoop]
      by_cases hdone : w.remaining = 0
      · rw [if_pos hdone]
        exact ⟨h, hsrc⟩
      · rw [if_neg hdone]
        have hleft := Nat.pos_of_ne_zero hdone
        obtain ⟨hgood, hrest⟩ := hsound.resolve_left hdone
        have hinv := h.step htrack hnum hleft hshort hpointed hgood
        cases hturn : turn bs buf t w with
        | error e =>
            rw [hturn] at hinv
            exact ⟨hinv.1, hinv.2 ▸ hsrc⟩
        | ok w' =>
            rw [hturn] at hinv
            have htrack' := htrack.step hnum hleft hturn
            exact ih hinv htrack' (hpointed.step h.ok htrack hnum hleft hturn) (hrest w' hturn)
              (htrack'.left ▸ Nat.le_add_right _ _)

/-- The loop at its start. -/
def Wr.start (bs : BlockSize) (d : Disk) (offset count : ℕ) : Wr :=
  { disk := d, haveBlocks := u32 (blocksFor bs d.file.size), pos := offset, remaining := count,
    src := 0, runFirst := 0, runBlocks := 0, runBytes := 0, runSrc := 0, written := 0 }

theorem Track.start {d : Disk} {offset count : ℕ} (hnum : Numbered bs offset count d.file.size) :
    Track bs offset count d.file.size (Wr.start bs d offset count) :=
  ⟨rfl, Nat.zero_add _, rfl, (u32_of_lt hnum.2).ge, Nat.mod_lt _ (by decide), .inl rfl⟩

theorem Inv.start {d : Disk} (h : d.Ok) (buf : ℕ → UInt8) (offset count : ℕ) :
    Inv bs buf offset (Wr.start bs d offset count) :=
  Inv.flushed h (fun _ hk => absurd hk (Nat.not_lt_zero _)) rfl rfl rfl

/-- The bytes that a write counts have landed, if no turn of it goes wrong. -/
theorem writeRuns_landed {a : Answers} {d : Disk} {offset count : ℕ} (h : d.Ok)
    (hnum : Numbered bs offset count d.file.size) (hshort : count < 2 ^ 32)
    (hsound : Along bs buf (Sound bs) a.turns (Wr.start bs d offset count)) :
    Landed bs buf offset (writeRuns bs buf a d offset count).2.written
      (writeRuns bs buf a d offset count).2.disk := by
  have hpointed : Pointed bs offset (Wr.start bs d offset count) := by
    intro _ x hx
    exact absurd hx.2 (Nat.not_lt.mpr hx.1)
  obtain ⟨hinv, hsrc⟩ :=
    (Inv.start h buf offset count).loop (Track.start hnum) hnum hshort hpointed hsound
  have hruns : writeRuns bs buf a d offset count =
      lastRun bs buf a.last (writeLoop bs buf a.turns (Wr.start bs d offset count)) := rfl
  rw [hruns]
  generalize writeLoop bs buf a.turns (Wr.start bs d offset count) = out at hinv hsrc
  obtain ⟨dev, hw, hbefore, hafter⟩ := hinv.flushRun (by omega) a.last
  simp only [lastRun]
  cases hflush : flushRun bs buf a.last out.2 with
  | mk e w' =>
      rw [hflush] at hw hafter
      dsimp only at hw hafter
      subst hw
      cases e with
      | some e => exact hbefore
      | none =>
          have hcounted := hinv.counted
          dsimp only
          rw [hcounted]
          exact hafter rfl

/-- **The bytes that a write reports** are in the file, if no turn of it goes wrong and it is not cut
    short. -/
theorem writeBody_bytes {a : Answers} {d : Disk} {offset count : ℕ} (h : d.Ok)
    (hcount : 0 < count) (hnum : Numbered bs offset count d.file.size) (hshort : count < 2 ^ 32)
    (hsound : Along bs buf (Sound bs) a.turns (Wr.start bs d offset count))
    (hcut : ¬ CutShort bs buf a d offset count) :
    ∀ k < (writeBody bs buf a d offset count).2.1,
      offset + k < (writeBody bs buf a d offset count).2.2.file.size ∧
        (writeBody bs buf a d offset count).2.2.byte bs (offset + k) = buf k := by
  intro k hk
  have hsize := (writeBody_size_iff buf a hcount hnum).mpr hcut
  have hlanded := writeRuns_landed h hnum hshort hsound
  have hwritten : (writeBody bs buf a d offset count).2.1 =
      (writeRuns bs buf a d offset count).2.written := rfl
  refine ⟨?_, ?_⟩
  · rw [hsize, if_pos (by omega)]
    exact Nat.lt_of_lt_of_le (Nat.add_lt_add_left hk offset) (Nat.le_max_right _ _)
  · obtain ⟨b, hb, hdev⟩ := hlanded k (hwritten ▸ hk)
    have hsame : (writeBody bs buf a d offset count).2.2.byte bs (offset + k) =
        (writeRuns bs buf a d offset count).2.disk.byte bs (offset + k) := by
      simp only [writeBody]
      split
      · rw [byte_touch]
        split
        · exact byte_setSize ..
        · rfl
      · rfl
    rw [hsame]
    simp only [Disk.byte, hb, hdev]

end Files

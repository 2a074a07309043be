import Mathlib.Algebra.Order.Ring.Nat
import OpenExt4.Files.Map

set_option autoImplicit false

/-! # What a file holds

Where the bytes of a file are on the device, and what the operations of `Map.lean` keep of them. -/

namespace Files

open ByteDevice

/-! ## Bytes of a file -/

/-- The address of a byte of the file, if its block is written. -/
def File.addr (bs : BlockSize) (f : File) (x : ℕ) : Option ℕ :=
  match f.map (x / bs.val) with
  | some m => if m.unwritten = true then none else some (m.fblk * bs.val + x % bs.val)
  | none => none

/-- A byte of the file as a read has it. -/
def Disk.byte (bs : BlockSize) (d : Disk) (x : ℕ) : UInt8 :=
  match d.file.addr bs x with
  | some a => d.dev a
  | none => 0

/-- Blocks of a file are its own and in use, and block pointers do not know of unwritten blocks. -/
structure Disk.Ok (d : Disk) : Prop where
  inj : ∀ l l' m m', d.file.map l = some m → d.file.map l' = some m' → m.fblk = m'.fblk → l = l'
  used : ∀ l m, d.file.map l = some m → d.used m.fblk = true
  pointers : d.file.extents = false → ∀ l m, d.file.map l = some m → m.unwritten = false

theorem File.addr_eq_some {bs : BlockSize} {f : File} {x a : ℕ} :
    f.addr bs x = some a ↔
      ∃ p, f.map (x / bs.val) = some ⟨p, false⟩ ∧ a = p * bs.val + x % bs.val := by
  simp only [File.addr]
  constructor
  · intro h
    split at h
    · next m hm =>
        obtain ⟨p, unwritten⟩ := m
        cases unwritten with
        | true => simp at h
        | false => exact ⟨p, hm, by simpa using h.symm⟩
    · simp at h
  · rintro ⟨p, hp, rfl⟩
    simp [hp]

/-- Two blocks of the device have no address in common. -/
theorem block_unique {b p q o r : ℕ} (ho : o < b) (hr : r < b) (h : p * b + o = q * b + r) :
    p = q ∧ o = r := by
  have hb : 0 < b := by omega
  have hdiv := congrArg (· / b) h
  have hmod := congrArg (· % b) h
  simp only [Nat.mul_comm p, Nat.mul_comm q, Nat.mul_add_div hb, Nat.div_eq_of_lt ho,
    Nat.div_eq_of_lt hr, Nat.add_zero] at hdiv
  simp only [Nat.mul_comm p, Nat.mul_comm q, Nat.mul_add_mod, Nat.mod_eq_of_lt ho,
    Nat.mod_eq_of_lt hr] at hmod
  exact ⟨hdiv, hmod⟩

/-- An address in a stretch of blocks is in one of its blocks. -/
theorem block_of_stretch {b p q o n : ℕ} (ho : o < b) (hlo : q * b ≤ p * b + o)
    (hhi : p * b + o < q * b + n * b) : q ≤ p ∧ p < q + n := by
  have hb : 0 < b := by omega
  have hlo' : q * b < (p + 1) * b := by rw [Nat.add_mul, Nat.one_mul]; omega
  have hhi' : p * b < (q + n) * b := by rw [Nat.add_mul]; omega
  exact ⟨Nat.lt_succ_iff.mp (Nat.lt_of_mul_lt_mul_right hlo'), Nat.lt_of_mul_lt_mul_right hhi'⟩

variable {bs : BlockSize}

/-- Different bytes of a file are at different addresses. -/
theorem Disk.Ok.addr_inj {d : Disk} (h : d.Ok) {x y a : ℕ} (hx : d.file.addr bs x = some a)
    (hy : d.file.addr bs y = some a) : x = y := by
  obtain ⟨p, hp, ha⟩ := File.addr_eq_some.mp hx
  obtain ⟨q, hq, ha'⟩ := File.addr_eq_some.mp hy
  obtain ⟨hpq, hmod⟩ := block_unique (Nat.mod_lt x bs.pos) (Nat.mod_lt y bs.pos) (ha ▸ ha')
  have hdiv := h.inj _ _ _ _ hp hq hpq
  rw [← Nat.div_add_mod x bs.val, ← Nat.div_add_mod y bs.val, hdiv, hmod]

/-! ## What an operation keeps -/

/-- The bytes of the file that meet `S` stay where they are and what they are. -/
def Keeps (bs : BlockSize) (S : ℕ → Prop) (d d' : Disk) : Prop :=
  ∀ x a, S x → d.file.addr bs x = some a → d'.file.addr bs x = some a ∧ d'.dev a = d.dev a

theorem Keeps.refl (bs : BlockSize) (S : ℕ → Prop) (d : Disk) : Keeps bs S d d :=
  fun _ _ _ ha => ⟨ha, rfl⟩

theorem Keeps.trans {S : ℕ → Prop} {d d' d'' : Disk} (h : Keeps bs S d d')
    (h' : Keeps bs S d' d'') : Keeps bs S d d'' := by
  intro x a hS ha
  obtain ⟨ha', hdev⟩ := h x a hS ha
  obtain ⟨ha'', hdev'⟩ := h' x a hS ha'
  exact ⟨ha'', hdev'.trans hdev⟩

theorem Keeps.weaken {S T : ℕ → Prop} {d d' : Disk} (h : Keeps bs S d d') (hST : ∀ x, T x → S x) :
    Keeps bs T d d' := fun x a hT ha => h x a (hST x hT) ha

/-- What a command puts into unwritten blocks is not seen in the file. -/
theorem Disk.Ok.put_unwritten {d : Disk} (h : d.Ok) {lblk n : ℕ} {m : Mapping}
    (hm : ∀ i < n, d.file.map (lblk + i) = some ⟨m.fblk + i, true⟩) {x a : ℕ}
    (ha : d.file.addr bs x = some a) :
    a < m.fblk * bs.val ∨ m.fblk * bs.val + n * bs.val ≤ a := by
  obtain ⟨p, hp, rfl⟩ := File.addr_eq_some.mp ha
  by_contra hin
  simp only [not_or, Nat.not_lt, Nat.not_le] at hin
  have hstretch := block_of_stretch (Nat.mod_lt x bs.pos) hin.1 hin.2
  have hmapped := hm (p - m.fblk) (by omega)
  have hsame : m.fblk + (p - m.fblk) = p := by omega
  rw [hsame] at hmapped
  have hl := h.inj _ _ _ _ hp hmapped rfl
  rw [hl, hmapped] at hp
  simp at hp

/-! ## The parts of `Map.lean` -/

theorem markRun_map_some {f : File} {lblk n l : ℕ} {m : Mapping}
    (h : (f.markRun lblk n).map l = some m) :
    ∃ m', f.map l = some m' ∧ m'.fblk = m.fblk ∧ (m'.unwritten = false → m = m') := by
  rw [markRun_map] at h
  split at h
  · obtain ⟨m', hm', rfl⟩ := Option.map_eq_some_iff.mp h
    exact ⟨m', hm', rfl, fun hw => by rw [← hw]⟩
  · exact ⟨m, h, rfl, fun _ => rfl⟩

theorem markRun_addr {f : File} {lblk n x a : ℕ} (ha : f.addr bs x = some a) :
    (f.markRun lblk n).addr bs x = some a := by
  obtain ⟨p, hp, rfl⟩ := File.addr_eq_some.mp ha
  refine File.addr_eq_some.mpr ⟨p, ?_, rfl⟩
  rw [markRun_map]
  split
  · rw [hp]; rfl
  · exact hp

theorem markRun_map_lt {f : File} {lblk n i : ℕ} {m : Mapping} (hi : i < n)
    (hm : f.map (lblk + i) = some m) : (f.markRun lblk n).map (lblk + i) = some ⟨m.fblk, false⟩ := by
  rw [markRun_map, if_pos ⟨Nat.le_add_right _ _, Nat.add_lt_add_left hi _⟩, hm]
  rfl

theorem Disk.Ok.markRun {d : Disk} (h : d.Ok) (lblk n : ℕ) (dev : ℕ → UInt8) :
    Disk.Ok ⟨d.file.markRun lblk n, d.used, dev⟩ where
  inj l l' m m' hl hl' hsame := by
    obtain ⟨q, hq, hfblk, -⟩ := markRun_map_some hl
    obtain ⟨q', hq', hfblk', -⟩ := markRun_map_some hl'
    exact h.inj l l' q q' hq hq' (hfblk.trans (hsame.trans hfblk'.symm))
  used l m hl := by
    obtain ⟨q, hq, hfblk, -⟩ := markRun_map_some hl
    exact hfblk ▸ h.used l q hq
  pointers hext l m hl := by
    obtain ⟨q, hq, -, hw⟩ := markRun_map_some hl
    have hfalse := h.pointers hext l q hq
    rw [hw hfalse]
    exact hfalse

theorem Disk.Ok.dev {d : Disk} (h : d.Ok) (dev : ℕ → UInt8) : Disk.Ok { d with dev := dev } :=
  ⟨h.inj, h.used, h.pointers⟩

theorem Disk.Ok.setSize {d : Disk} (h : d.Ok) (size : ℕ) : (d.setSize size).Ok :=
  ⟨h.inj, h.used, h.pointers⟩

@[simp] theorem setSize_addr (d : Disk) (size x : ℕ) :
    (d.setSize size).file.addr bs x = d.file.addr bs x := rfl

@[simp] theorem byte_setSize (d : Disk) (size x : ℕ) :
    (d.setSize size).byte bs x = d.byte bs x := rfl

@[simp] theorem byte_touch (d : Disk) (now x : ℕ) : (d.touch now).byte bs x = d.byte bs x := rfl

@[simp] theorem setSize_dev (d : Disk) (size : ℕ) : (d.setSize size).dev = d.dev := rfl

/-- A block that was not in use may become a block of the file. -/
theorem Disk.Ok.assign {d : Disk} (h : d.Ok) {lblk fresh : ℕ} (hfresh : d.used fresh = false) :
    Disk.Ok ⟨d.file.assign lblk fresh, Function.update d.used fresh true, d.dev⟩ where
  inj l l' m m' hl hl' hsame := by
    simp only [assign_map, Function.update_apply] at hl hl'
    split at hl <;> split at hl'
    · next hll hll' => exact hll.trans hll'.symm
    · have hinUse := h.used l' m' hl'
      rw [← hsame, ← Option.some.inj hl] at hinUse
      rw [hfresh] at hinUse
      cases hinUse
    · have hinUse := h.used l m hl
      rw [hsame, ← Option.some.inj hl'] at hinUse
      rw [hfresh] at hinUse
      cases hinUse
    · exact h.inj l l' m m' hl hl' hsame
  used l m hl := by
    simp only [assign_map, Function.update_apply] at hl ⊢
    split at hl
    · rw [← Option.some.inj hl]
      simp
    · split
      · rfl
      · exact h.used l m hl
  pointers hext l m hl := by
    simp only [assign_map, Function.update_apply] at hl
    split at hl
    · rw [← Option.some.inj hl]
    · exact h.pointers hext l m hl

theorem assign_addr {f : File} {lblk fresh x a : ℕ} (ha : f.addr bs x = some a)
    (hx : x / bs.val ≠ lblk) : (f.assign lblk fresh).addr bs x = some a := by
  obtain ⟨p, hp, rfl⟩ := File.addr_eq_some.mp ha
  refine File.addr_eq_some.mpr ⟨p, ?_, rfl⟩
  rw [assign_map, Function.update_of_ne hx, hp]

theorem allocBlock_ok {d d' : Disk} {fresh : ℕ} (h : allocBlock d fresh = .ok d') :
    d.used fresh = false ∧ fresh ≠ 0 ∧ d' = { d with used := Function.update d.used fresh true } := by
  simp only [allocBlock] at h
  split at h
  · cases h
  · next hfree =>
      have heq := Except.ok.inj h
      simp only [not_or, Bool.not_eq_true] at hfree
      exact ⟨hfree.2, hfree.1, heq.symm⟩

/-! ## One operation -/

/-- What an operation on the blocks of a file leaves behind: a sound file with the same inode, and
    the bytes that meet `S`. A block it has anew was not in use. -/
structure Step (bs : BlockSize) (S : ℕ → Prop) (d d' : Disk) : Prop where
  ok : d'.Ok
  keeps : Keeps bs S d d'
  inode : d'.file = { d.file with size := d'.file.size, blocks := d'.file.blocks }
  fresh : ∀ l m, d'.file.map l = some m →
    (∃ m', d.file.map l = some m' ∧ m'.fblk = m.fblk) ∨ d.used m.fblk = false
  mono : ∀ p, d.used p = true → d'.used p = true

theorem Step.extents {S : ℕ → Prop} {d d' : Disk} (h : Step bs S d d') :
    d'.file.extents = d.file.extents := by rw [h.inode]

theorem Step.refl {S : ℕ → Prop} {d : Disk} (h : d.Ok) : Step bs S d d :=
  ⟨h, Keeps.refl bs S d, rfl, fun _ m hm => .inl ⟨m, hm, rfl⟩, fun _ hp => hp⟩

theorem Step.trans {S : ℕ → Prop} {d d' d'' : Disk} (h : Step bs S d d') (h' : Step bs S d' d'') :
    Step bs S d d'' where
  ok := h'.ok
  keeps := h.keeps.trans h'.keeps
  inode := by rw [h'.inode, h.inode]
  fresh l m hm := by
    rcases h'.fresh l m hm with ⟨m', hm', hsame⟩ | hfree
    · exact hsame ▸ h.fresh l m' hm'
    · refine .inr ?_
      by_contra hused
      rw [h.mono _ (by simpa using hused)] at hfree
      cases hfree
  mono p hp := h'.mono p (h.mono p hp)

theorem Step.setSize {S : ℕ → Prop} {d d' : Disk} (h : Step bs S d d') (size : ℕ) :
    Step bs S d (d'.setSize size) where
  ok := h.ok.setSize size
  keeps := fun x a hS ha => h.keeps x a hS ha
  inode := by simp only [Disk.setSize]; rw [h.inode]
  fresh := h.fresh
  mono := h.mono

/-- Zeroing blocks that are unwritten, as far as it lands. -/
theorem Disk.Ok.zero_step {d : Disk} (h : d.Ok) (bs : BlockSize) (S : ℕ → Prop) {lblk n : ℕ} {m : Mapping}
    (hm : ∀ i < n, d.file.map (lblk + i) = some ⟨m.fblk + i, true⟩) (landed : ℕ → Bool) :
    Step bs S d
      { d with dev := put d.dev (m.fblk * bs.val) (n * bs.val) (fun _ => 0) landed } where
  ok := h.dev _
  keeps := fun x a _ ha => by
    refine ⟨ha, ?_⟩
    dsimp only
    exact put_outside (h.put_unwritten hm ha)
  inode := rfl
  fresh _ m hm := .inl ⟨m, hm, rfl⟩
  mono _ hp := hp

theorem Disk.Ok.mark_step {d : Disk} (h : d.Ok) (S : ℕ → Prop) (lblk n : ℕ) :
    Step bs S d { d with file := d.file.markRun lblk n } where
  ok := h.markRun lblk n d.dev
  keeps := fun _ _ _ ha => ⟨markRun_addr ha, rfl⟩
  inode := rfl
  fresh _ _ hm := by
    obtain ⟨m', hm', hsame, -⟩ := markRun_map_some hm
    exact .inl ⟨m', hm', hsame⟩
  mono _ hp := hp

theorem Disk.Ok.assign_step {d : Disk} (h : d.Ok) {bs : BlockSize} {S : ℕ → Prop} (lblk : ℕ)
    {fresh : ℕ}
    (hfresh : d.used fresh = false)
    (hS : ∀ x a, S x → d.file.addr bs x = some a → x / bs.val ≠ lblk) :
    Step bs S d ⟨d.file.assign lblk fresh, Function.update d.used fresh true, d.dev⟩ where
  ok := h.assign hfresh
  keeps := fun x a hx ha => ⟨assign_addr ha (hS x a hx ha), rfl⟩
  inode := rfl
  fresh l m hm := by
    simp only [assign_map, Function.update_apply] at hm
    split at hm
    · rw [← Option.some.inj hm]
      exact .inr hfresh
    · exact .inl ⟨m, hm, rfl⟩
  mono p hp := by
    simp only [Function.update_apply]
    split
    · rfl
    · exact hp

/-- What a lookup that allocates gives, and leaves if it fails. -/
def Gives (bs : BlockSize) (S : ℕ → Prop) (d : Disk) (lblk max : ℕ) :
    Except (Errno × Disk) (ℕ × ℕ × Disk) → Prop
  | .error (_, d') => Step bs S d d' ∧ d'.file.size = d.file.size
  | .ok (fblk, n, d') => Step bs S d d' ∧ d'.file.size = d.file.size ∧ 1 ≤ n ∧ n ≤ max ∧
      ∀ i < n, d'.file.map (lblk + i) = some ⟨fblk + i, false⟩

/-- `getBlocks` keeps every byte: it zeroes unwritten blocks only, and allocates in holes only. -/
theorem Disk.Ok.gives {d : Disk} (h : d.Ok) (bs : BlockSize) (S : ℕ → Prop) (o : Blocks)
    (iblock : ℕ) {max : ℕ} (hmax : 0 < max) : Gives bs S d iblock max (getBlocks bs d o iblock max) := by
  simp only [getBlocks]
  cases hm : d.file.map iblock with
  | none =>
      dsimp only
      split
      · exact ⟨Step.refl h, rfl⟩
      · split
        · exact ⟨Step.refl h, rfl⟩
        · next d' halloc =>
            obtain ⟨hfresh, -, rfl⟩ := allocBlock_ok halloc
            refine ⟨h.assign_step iblock hfresh fun x a _ ha hx => ?_, rfl, le_refl 1, hmax, fun i hi => ?_⟩
            · obtain ⟨p, hp, -⟩ := File.addr_eq_some.mp ha
              rw [hx, hm] at hp
              cases hp
            · obtain rfl : i = 0 := by omega
              simp [assign_map]
  | some m =>
      dsimp only
      have hpos : 0 < runOn d.file.map (min max (extentLen o.rest)) iblock m :=
        runOn_pos (Nat.lt_min.mpr ⟨hmax, extentLen_pos _⟩) hm
      have hle := (runOn_le d.file.map (min max (extentLen o.rest)) iblock m).trans (Nat.min_le_left _ _)
      generalize hn : runOn d.file.map (min max (extentLen o.rest)) iblock m = n at *
      have hrun : ∀ i < n, d.file.map (iblock + i) = some ⟨m.fblk + i, m.unwritten⟩ :=
        fun i hi => map_of_lt_runOn (hn ▸ hi)
      split
      · split
        · next hun => exact ⟨h.zero_step bs S (fun i hi => hun ▸ hrun i hi) _, rfl⟩
        · exact ⟨Step.refl h, rfl⟩
      · split
        · next hun =>
            have hzero := h.zero_step bs S (fun i hi => hun ▸ hrun i hi) fun _ => true
            exact ⟨hzero.trans (hzero.ok.mark_step S iblock n), rfl, hpos, hle,
              fun i hi => markRun_map_lt hi (hrun i hi)⟩
        · next hun =>
            simp only [Bool.not_eq_true] at hun
            exact ⟨Step.refl h, rfl, hpos, hle, fun i hi => hun ▸ hrun i hi⟩

/-- A lookup within the file gives 0, or the block that is written at `lblk` now. -/
def Finds (bs : BlockSize) (S : ℕ → Prop) (d : Disk) (lblk : ℕ) :
    Except (Errno × Disk) (ℕ × Disk) → Prop
  | .error (_, d') => Step bs S d d' ∧ d'.file.size = d.file.size
  | .ok (fblk, d') => Step bs S d d' ∧ d'.file.size = d.file.size ∧
      (fblk ≠ 0 → d'.file.map lblk = some ⟨fblk, false⟩)

theorem Disk.Ok.finds {d : Disk} (h : d.Ok) (bs : BlockSize) (S : ℕ → Prop) (o : Blocks) (iblock : ℕ) :
    Finds bs S d iblock (initInodeDblkIdx bs d o iblock) := by
  simp only [initInodeDblkIdx]
  split
  · exact ⟨Step.refl h, rfl, fun hne => absurd rfl hne⟩
  · split
    · have hgives := h.gives bs S o iblock Nat.one_pos
      cases hget : getBlocks bs d o iblock 1 with
      | error e =>
          rw [hget] at hgives
          exact hgives
      | ok out =>
          rw [hget] at hgives
          obtain ⟨hstep, hsize, hn, -, hmap⟩ := hgives
          exact ⟨hstep, hsize, fun _ => by simpa using hmap 0 hn⟩
    · next hext =>
        simp only [Bool.not_eq_true] at hext
        cases o.fails with
        | some e => exact ⟨Step.refl h, rfl⟩
        | none =>
            cases hm : d.file.map iblock with
            | none => exact ⟨Step.refl h, rfl, fun hne => absurd rfl hne⟩
            | some m =>
                refine ⟨Step.refl h, rfl, fun _ => ?_⟩
                rw [hm, ← h.pointers hext iblock m hm]

/-! ## Appending -/

theorem blocksFor_add (bs : BlockSize) (size n : ℕ) :
    blocksFor bs (size + n * bs.val) = blocksFor bs size + n := by
  have hpos := bs.pos
  have hshift : size + n * bs.val + bs.val - 1 = size + bs.val - 1 + n * bs.val := by omega
  rw [blocksFor, hshift, Nat.add_mul_div_right _ _ hpos, blocksFor]

theorem blocksFor_mul (bs : BlockSize) (n : ℕ) : blocksFor bs (n * bs.val) = n := by
  have hpos := bs.pos
  have hzero : blocksFor bs 0 = 0 := Nat.div_eq_of_lt (by omega)
  rw [← Nat.zero_add (n * bs.val), blocksFor_add, hzero, Nat.zero_add]

theorem le_blocksFor_mul (bs : BlockSize) (n : ℕ) : n ≤ blocksFor bs n * bs.val := by
  have hpos := bs.pos
  have hdiv := Nat.div_add_mod (n + bs.val - 1) bs.val
  have hmod := Nat.mod_lt (n + bs.val - 1) hpos
  rw [Nat.mul_comm] at hdiv
  rw [blocksFor]
  omega

/-- An append gives at most what it is asked for, and something. -/
theorem append_count {d d' : Disk} {o : Blocks} {max fblk n : ℕ} (hmax : 0 < max)
    (h : appendInodeDblkRange bs d o max = .ok (fblk, n, d')) : 1 ≤ n ∧ n ≤ max := by
  simp only [appendInodeDblkRange] at h
  split at h
  · split at h
    · cases h
    · next fblk' got d'' hget =>
        simp only [Except.ok.injEq, Prod.mk.injEq] at h
        obtain ⟨-, rfl, -⟩ := h
        simp only [getBlocks] at hget
        split at hget
        · next m hm =>
            have hpos := runOn_pos (Nat.lt_min.mpr ⟨hmax, extentLen_pos o.rest⟩) hm
            have hle := runOn_le d.file.map (min max (extentLen o.rest)) (u32 (blocksFor bs d.file.size)) m
            split at hget
            · split at hget <;> cases hget
            · split at hget <;> simp only [Except.ok.injEq, Prod.mk.injEq] at hget <;> omega
        · split at hget
          · cases hget
          · split at hget
            · cases hget
            · simp only [Except.ok.injEq, Prod.mk.injEq] at hget
              omega
  · split at h
    · cases h
    · simp only [Except.ok.injEq, Prod.mk.injEq] at h
      omega

/-- An append behind `n` blocks keeps the bytes, and gives blocks that are written from `n` on. -/
def Appends (bs : BlockSize) (S : ℕ → Prop) (d : Disk) (n : ℕ) :
    Except (Errno × Disk) (ℕ × ℕ × Disk) → Prop
  | .error (_, d') => Step bs S d d'
  | .ok (fblk, got, d') => Step bs S d d' ∧ blocksFor bs d'.file.size = n + got ∧
      d.file.size ≤ d'.file.size ∧ ∀ i < got, d'.file.map (n + i) = some ⟨fblk + i, false⟩

theorem Disk.Ok.appends {d : Disk} (h : d.Ok) {bs : BlockSize} {S : ℕ → Prop} (o : Blocks) {n max : ℕ}
    (hn : blocksFor bs d.file.size = n) (hlt : n < 2 ^ 32) (hmax : 0 < max)
    (hS : d.file.extents = false → ∀ x, S x → x / bs.val ≠ n) :
    Appends bs S d n (appendInodeDblkRange bs d o max) := by
  subst hn
  simp only [appendInodeDblkRange]
  split
  · rw [u32_of_lt hlt]
    have hgives := h.gives bs S o (blocksFor bs d.file.size) hmax
    cases hget : getBlocks bs d o (blocksFor bs d.file.size) max with
    | error e =>
        rw [hget] at hgives
        exact hgives.1
    | ok out =>
        rw [hget] at hgives
        obtain ⟨hstep, -, -, -, hmap⟩ := hgives
        exact ⟨hstep.setSize _, blocksFor_add .., Nat.le_add_right _ _, hmap⟩
  · next hext =>
      simp only [Bool.not_eq_true] at hext
      simp only [appendInodeDblk]
      cases halloc : allocBlock d o.fresh with
      | error e => exact Step.refl h
      | ok d' =>
          obtain ⟨hfresh, -, rfl⟩ := allocBlock_ok halloc
          cases o.fails with
          | some e => exact Step.refl h
          | none =>
              have hidx : u32 (blocksFor bs d.file.size * bs.val / bs.val)
                  = blocksFor bs d.file.size := by
                rw [Nat.mul_div_cancel _ bs.pos, u32_of_lt hlt]
              dsimp only
              rw [hidx]
              have hstep : Step bs S d _ := h.assign_step (blocksFor bs d.file.size) hfresh
                fun x a hx _ => hS hext x hx
              have hle := le_blocksFor_mul bs d.file.size
              refine ⟨hstep.setSize _, ?_, ?_, fun i hi => ?_⟩
              · have hsize : blocksFor bs d.file.size * bs.val + bs.val
                    = (blocksFor bs d.file.size + 1) * bs.val := by rw [Nat.add_mul, Nat.one_mul]
                simp only [Disk.setSize, hsize, blocksFor_mul]
              · simp only [Disk.setSize]
                omega
              · obtain rfl : i = 0 := by omega
                exact congrFun (assign_map d.file _ _) _ |>.trans (by simp)

/-- An append anywhere, if the size accounts for other blocks than the caller thinks. -/
theorem Disk.Ok.append_step {d : Disk} (h : d.Ok) (bs : BlockSize) (o : Blocks) {max : ℕ} (hmax : 0 < max) :
    match appendInodeDblkRange bs d o max with
    | .error (_, d') => Step bs (fun _ => False) d d'
    | .ok (_, _, d') => Step bs (fun _ => False) d d' := by
  simp only [appendInodeDblkRange]
  by_cases hext : d.file.extents = true
  · rw [if_pos hext]
    have hgives := h.gives bs (fun _ => False) o (u32 (blocksFor bs d.file.size)) hmax
    cases hget : getBlocks bs d o (u32 (blocksFor bs d.file.size)) max with
    | error e =>
        rw [hget] at hgives
        exact hgives.1
    | ok out =>
        rw [hget] at hgives
        exact hgives.1.setSize _
  · rw [if_neg hext]
    simp only [appendInodeDblk]
    cases halloc : allocBlock d o.fresh with
    | error e => exact Step.refl h
    | ok d' =>
        obtain ⟨hfresh, -, rfl⟩ := allocBlock_ok halloc
        cases o.fails with
        | some e => exact Step.refl h
        | none => exact (h.assign_step _ hfresh fun _ _ hx _ => hx.elim).setSize _

end Files

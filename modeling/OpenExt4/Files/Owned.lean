import OpenExt4.Files.Calls
import OpenExt4.Files.Contents

set_option autoImplicit false

/-! # Blocks belong to one file

No block of the device is a block of two files, or twice a block of one; the table of reservations
and its trims keep that, and change nothing else of an inode than its blocks. -/

namespace Files

open ByteDevice Batching

variable {bs : BlockSize}

/-! ## Removing blocks -/

theorem lookup_filter {α : Type} (p : ℕ → Bool) (xs : List (ℕ × α)) (l : ℕ) :
    (xs.filter fun b => p b.1).lookup l = if p l = true then xs.lookup l else none := by
  induction xs with
  | nil => simp
  | cons x rest ih =>
      obtain ⟨k, a⟩ := x
      by_cases hk : l = k
      · subst hk
        by_cases hp : p l = true
        · simp [hp]
        · simp [hp, ih]
      · have hne : (l == k) = false := by simpa using hk
        by_cases hp : p k = true
        · simp [hp, List.lookup_cons, hne, ih]
        · simp [hp, List.lookup_cons, hne, ih]

theorem remove_map (d : Disk) (p : ℕ → Bool) (l : ℕ) :
    (d.remove p).file.map l = if p l = true then none else d.file.map l := by
  have hfilter := lookup_filter (fun l => !p l) d.file.blocks l
  simp only [File.map, Disk.remove, hfilter]
  cases p l with
  | true => rfl
  | false => rfl

/-- A block is in use behind a removal if it was and is not removed. -/
theorem remove_used {d : Disk} {p : ℕ → Bool} {q : ℕ} :
    (d.remove p).used q = true ↔
      d.used q = true ∧ ∀ l m, p l = true → d.file.map l = some m → m.fblk ≠ q := by
  simp only [Disk.remove, Bool.and_eq_true, Bool.not_eq_true', List.any_eq_false, decide_eq_true_eq,
    beq_iff_eq, not_and, Prod.forall]
  refine and_congr_right fun _ => ⟨fun h l m hp hm => ?_, fun h l m _ hpm => h l m hpm.1 hpm.2⟩
  obtain ⟨before, after, hblocks, -⟩ := List.lookup_eq_some_iff.mp hm
  exact h l m (by rw [hblocks]; simp) ⟨hp, hm⟩

/-! ## Allocating ahead -/

theorem assignUnwritten_map (f : File) (lblk fblk : ℕ) :
    (f.assignUnwritten lblk fblk).map = Function.update f.map lblk (some ⟨fblk, true⟩) := by
  funext l
  simp only [File.map, File.assignUnwritten, List.lookup_cons]
  by_cases hl : l = lblk
  · subst hl
    simp
  · have hne : (l == lblk) = false := by simpa using hl
    rw [Function.update_of_ne hl, hne]
    rfl

/-- A block that was not in use may become an unwritten block of a file with extents. -/
theorem Disk.Ok.assignUnwritten_step {d : Disk} (h : d.Ok) (hext : d.file.extents = true)
    (bs : BlockSize) (lblk : ℕ) {fresh : ℕ} (hfresh : d.used fresh = false) :
    Step bs (fun _ => False) d
      ⟨d.file.assignUnwritten lblk fresh, Function.update d.used fresh true, d.dev⟩ where
  ok := by
    refine ⟨fun l l' m m' hl hl' hsame => ?_, fun l m hl => ?_, fun hno => ?_⟩
    · simp only [assignUnwritten_map, Function.update_apply] at hl hl'
      split at hl <;> split at hl'
      · next hll hll' => exact hll.trans hll'.symm
      · have hinUse := h.used l' m' hl'
        rw [← hsame, ← Option.some.inj hl, hfresh] at hinUse
        cases hinUse
      · have hinUse := h.used l m hl
        rw [hsame, ← Option.some.inj hl', hfresh] at hinUse
        cases hinUse
      · exact h.inj l l' m m' hl hl' hsame
    · simp only [assignUnwritten_map, Function.update_apply] at hl ⊢
      split at hl
      · rw [← Option.some.inj hl]
        simp
      · split
        · rfl
        · exact h.used l m hl
    · rw [show (d.file.assignUnwritten lblk fresh).extents = d.file.extents from rfl, hext] at hno
      cases hno
  keeps := fun _ _ hx => hx.elim
  inode := rfl
  fresh l m hm := by
    simp only [assignUnwritten_map, Function.update_apply] at hm
    split at hm
    · rw [← Option.some.inj hm]
      exact .inr hfresh
    · exact .inl ⟨m, hm, rfl⟩
  mono p hp := by
    simp only [Function.update_apply]
    split
    · rfl
    · exact hp

theorem preallocate_step (bs : BlockSize) (iblock count : ℕ) (os : List Blocks)
    (done allocated : ℕ) {d : Disk} (h : d.Ok) (hext : d.file.extents = true) :
    Step bs (fun _ => False) d (preallocate iblock count os done allocated d).2.2 ∧
      (preallocate iblock count os done allocated d).2.2.file.size = d.file.size ∧
      (preallocate iblock count os done allocated d).2.2.dev = d.dev := by
  induction os generalizing done allocated d with
  | nil => exact ⟨Step.refl h, rfl, rfl⟩
  | cons o os ih =>
      simp only [preallocate]
      split
      · exact ⟨Step.refl h, rfl, rfl⟩
      · split
        · exact ⟨Step.refl h, rfl, rfl⟩
        · split
          · exact ih _ _ h hext
          · split
            · exact ⟨Step.refl h, rfl, rfl⟩
            · next d' halloc =>
                obtain ⟨hfresh, -, rfl⟩ := allocBlock_ok halloc
                have hstep := h.assignUnwritten_step hext bs (u32 (iblock + done)) hfresh
                obtain ⟨hrest, hsize, hdev⟩ := ih (done + 1) (allocated + 1) hstep.ok hext
                exact ⟨hstep.trans hrest, hsize, hdev⟩

/-! ## The whole volume -/

/-- Blocks of files are in use and belong to one place in one file. -/
structure Meta.Ok (m : Meta) : Prop where
  own : ∀ i l i' l' a a', (m.files i).map l = some a → (m.files i').map l' = some a' →
    a.fblk = a'.fblk → i = i' ∧ l = l'
  used : ∀ i l a, (m.files i).map l = some a → m.used a.fblk = true
  pointers : ∀ i, (m.files i).extents = false → ∀ l a, (m.files i).map l = some a →
    a.unwritten = false

theorem Meta.Ok.file {v : Vol} (h : v.batch.cur.Ok) (ino : ℕ) : (v.file ino).Ok where
  inj l l' m m' hl hl' hsame := (h.own ino l ino l' m m' hl hl' hsame).2
  used l m hl := h.used ino l m hl
  pointers hext l m hl := h.pointers ino hext l m hl

@[simp] theorem put_files_self (v : Vol) (ino : ℕ) (d : Disk) :
    (v.put ino d).batch.cur.files ino = d.file := by simp [Vol.put, Batch.set]

@[simp] theorem put_files_other (v : Vol) {ino i : ℕ} (d : Disk) (h : i ≠ ino) :
    (v.put ino d).batch.cur.files i = v.batch.cur.files i := by
  simp [Vol.put, Batch.set, Function.update_of_ne h]

/-- An operation on the blocks of one file leaves the blocks of all files apart. -/
theorem Meta.Ok.put {v : Vol} (h : v.batch.cur.Ok) {S : ℕ → Prop} {ino : ℕ} {d : Disk}
    (hstep : Step bs S (v.file ino) d) : (v.put ino d).batch.cur.Ok := by
  have hnew : ∀ i l i' l' a a', i = ino → i' ≠ ino → d.file.map l = some a →
      (v.batch.cur.files i').map l' = some a' → a.fblk ≠ a'.fblk := by
    intro i l i' l' a a' hi hi' ha ha' hsame
    rcases hstep.fresh l a ha with ⟨b, hb, hblk⟩ | hfree
    · exact hi' (h.own ino l i' l' b a' hb ha' (hblk.trans hsame)).1.symm
    · have hused := h.used i' l' a' ha'
      rw [← hsame] at hused
      rw [show (v.file ino).used a.fblk = v.batch.cur.used a.fblk from rfl, hused] at hfree
      cases hfree
  refine ⟨fun i l i' l' a a' ha ha' hsame => ?_, fun i l a ha => ?_, fun i hext l a ha => ?_⟩
  · by_cases hi : i = ino
    · by_cases hi' : i' = ino
      · subst hi hi'
        rw [put_files_self] at ha ha'
        exact ⟨rfl, hstep.ok.inj l l' a a' ha ha' hsame⟩
      · rw [hi, put_files_self] at ha
        rw [put_files_other v d hi'] at ha'
        exact absurd hsame (hnew i l i' l' a a' hi hi' ha ha')
    · by_cases hi' : i' = ino
      · rw [put_files_other v d hi] at ha
        rw [hi', put_files_self] at ha'
        exact absurd hsame.symm (hnew i' l' i l a' a hi' hi ha' ha)
      · rw [put_files_other v d hi] at ha
        rw [put_files_other v d hi'] at ha'
        exact h.own i l i' l' a a' ha ha' hsame
  · by_cases hi : i = ino
    · rw [hi, put_files_self] at ha
      exact hstep.ok.used l a ha
    · rw [put_files_other v d hi] at ha
      exact hstep.mono _ (h.used i l a ha)
  · by_cases hi : i = ino
    · rw [hi, put_files_self] at ha hext
      exact hstep.ok.pointers hext l a ha
    · rw [put_files_other v d hi] at ha hext
      exact h.pointers i hext l a ha

theorem Meta.Ok.remove {v : Vol} (h : v.batch.cur.Ok) (ino : ℕ) (p : ℕ → Bool) :
    (v.put ino ((v.file ino).remove p)).batch.cur.Ok := by
  have hold : ∀ i l a, ((v.put ino ((v.file ino).remove p)).batch.cur.files i).map l = some a →
      (v.batch.cur.files i).map l = some a ∧ (i = ino → p l = false) := by
    intro i l a ha
    by_cases hi : i = ino
    · subst hi
      rw [put_files_self, remove_map] at ha
      split at ha
      · cases ha
      · next hp => exact ⟨ha, fun _ => by simpa using hp⟩
    · rw [put_files_other v _ hi] at ha
      exact ⟨ha, fun heq => absurd heq hi⟩
  refine ⟨fun i l i' l' a a' ha ha' hsame => ?_, fun i l a ha => ?_, fun i hext l a ha => ?_⟩
  · exact h.own i l i' l' a a' (hold i l a ha).1 (hold i' l' a' ha').1 hsame
  · obtain ⟨ha, hp⟩ := hold i l a ha
    refine remove_used.mpr ⟨h.used i l a ha, fun l' m hremoved hm hsame => ?_⟩
    obtain ⟨rfl, rfl⟩ := h.own ino l' i l m a hm ha hsame
    rw [hp rfl] at hremoved
    cases hremoved
  · refine h.pointers i ?_ l a (hold i l a ha).1
    by_cases hi : i = ino
    · subst hi
      rw [put_files_self] at hext
      exact hext
    · rwa [put_files_other v _ hi] at hext

/-! ## The table of reservations -/

/-- Nothing of an inode changes but its blocks, and nothing is committed. -/
structure Quiet (v v' : Vol) : Prop where
  ok : v'.batch.cur.Ok
  files : ∀ i, v'.batch.cur.files i =
    { v.batch.cur.files i with blocks := (v'.batch.cur.files i).blocks }
  batch : v'.batch = v.batch.set v'.batch.cur
  dev : v'.dev = v.dev

theorem Quiet.refl {v : Vol} (h : v.batch.cur.Ok) : Quiet v v := ⟨h, fun _ => rfl, rfl, rfl⟩

theorem Quiet.trans {v v' v'' : Vol} (h : Quiet v v') (h' : Quiet v' v'') : Quiet v v'' where
  ok := h'.ok
  files i := by rw [h'.files i, h.files i]
  batch := by rw [h'.batch, h.batch]; rfl
  dev := h'.dev.trans h.dev

theorem Quiet.size {v v' : Vol} (h : Quiet v v') (i : ℕ) :
    (v'.batch.cur.files i).size = (v.batch.cur.files i).size := by rw [h.files i]

/-- The table may change as it likes. -/
theorem Quiet.table {v v' : Vol} (h : Quiet v v') (resv : List Slot) (resvNext : ℕ) :
    Quiet v { v' with resv := resv, resvNext := resvNext } := ⟨h.ok, h.files, h.batch, h.dev⟩

theorem Quiet.from_table {v v' : Vol} (resv : List Slot) (resvNext : ℕ)
    (h : Quiet { v with resv := resv, resvNext := resvNext } v') : Quiet v v' :=
  ⟨h.ok, h.files, h.batch, h.dev⟩

theorem quiet_put {v : Vol} {ino : ℕ} {d : Disk} (hok : (v.put ino d).batch.cur.Ok)
    (hfile : d.file = { (v.file ino).file with blocks := d.file.blocks }) (hdev : d.dev = v.dev) :
    Quiet v (v.put ino d) where
  ok := hok
  files i := by
    by_cases hi : i = ino
    · subst hi
      rw [put_files_self]
      exact hfile
    · rw [put_files_other v d hi]
  batch := rfl
  dev := hdev

theorem quiet_remove {v : Vol} (h : v.batch.cur.Ok) (ino : ℕ) (p : ℕ → Bool) :
    Quiet v (v.put ino ((v.file ino).remove p)) :=
  quiet_put (h.remove ino p) rfl rfl

theorem removeSpace_cases (d : Disk) (o : Removal) (start : ℕ) :
    (removeSpace d o start).2 = d ∨ ∃ p, (removeSpace d o start).2 = d.remove p := by
  simp only [removeSpace]
  split
  · exact .inl rfl
  · split
    · exact .inl rfl
    · split
      · next e n _ => exact .inr ⟨fun l => start ≤ l && l < n, rfl⟩
      · exact .inr ⟨fun l => start ≤ l, rfl⟩

theorem put_file_self (v : Vol) (ino : ℕ) : v.put ino (v.file ino) = v := by
  simp [Vol.put, Vol.file, Batch.set]

theorem trim_quiet (bs : BlockSize) {v : Vol} (h : v.batch.cur.Ok) (o : Trim) (ino : ℕ) :
    Quiet v (trimAllocToSize bs v o ino).2 := by
  simp only [trimAllocToSize]
  split
  · exact Quiet.refl h
  · split
    · exact Quiet.refl h
    · split
      · exact Quiet.refl h
      · dsimp only
        rcases removeSpace_cases (v.file ino) o.removal
          (u32 (blocksFor bs (v.file ino).file.size)) with hsame | ⟨p, hremoved⟩
        · rw [hsame, put_file_self]
          exact Quiet.refl h
        · rw [hremoved]
          exact quiet_remove h ino p

theorem resvSet_quiet {v : Vol} (h : v.batch.cur.Ok) (evict : Trim) (ino endLblk : ℕ) :
    Quiet v (resvSet bs v evict ino endLblk).2 := by
  simp only [resvSet]
  split
  · exact (Quiet.refl h).table _ _
  · split
    · exact (Quiet.refl h).table _ _
    · exact Quiet.from_table _ _ (trim_quiet bs (v := { v with
        resv := v.resv.set (v.resvNext % EXT4B_RESERVE_SLOTS) ⟨ino, endLblk⟩
        resvNext := v.resvNext % EXT4B_RESERVE_SLOTS + 1 }) h evict _)

theorem releaseSlots_quiet {trims : ℕ → Trim} {i : ℕ} {slots : List Slot} {v : Vol}
    (h : v.batch.cur.Ok) : Quiet v (releaseSlots bs trims i slots v).2 := by
  induction slots generalizing i v with
  | nil => exact Quiet.refl h
  | cons s rest ih =>
      simp only [releaseSlots]
      split
      · exact ih h
      · have htrim := trim_quiet bs h (trims i) s.inode
        exact htrim.trans (ih htrim.ok)

theorem releaseAll_quiet {v : Vol} (h : v.batch.cur.Ok) (trims : ℕ → Trim) :
    Quiet v (resvReleaseAll bs v trims).2 :=
  Quiet.from_table _ v.resvNext (releaseSlots_quiet h)

theorem preallocate_quiet {v : Vol} (h : v.batch.cur.Ok) {ino : ℕ}
    (hext : (v.file ino).file.extents = true) (iblock count : ℕ) (os : List Blocks) :
    Quiet v (v.put ino (preallocate iblock count os 0 0 (v.file ino)).2.2) := by
  obtain ⟨hstep, hsize, hdev⟩ := preallocate_step ⟨1, Nat.one_pos, by decide⟩ iblock count os 0 0
    (h.file ino) hext
  refine quiet_put (h.put hstep) ?_ hdev
  rw [hstep.inode, hsize]

/-- Reserving ahead of a write changes nothing of a file but its blocks. -/
theorem reserveAhead_quiet (bs : BlockSize) {v : Vol} (h : v.batch.cur.Ok) (o : Reserve) (ino offset count : ℕ) :
    Quiet v (reserveAhead bs v o ino offset count).2 := by
  simp only [reserveAhead]
  split
  · next hwants =>
      split
      · exact Quiet.refl h
      · split
        · exact releaseAll_quiet h o.release
        · split
          · have hput := preallocate_quiet h hwants.2.2.2
            split
            · exact (hput _ _ _).trans (resvSet_quiet (hput _ _ _).ok o.evict ino _)
            · exact hput _ _ _
          · exact Quiet.refl h
  · exact Quiet.refl h

end Files

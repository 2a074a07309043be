import OpenExt4.Files.Reserved
import OpenExt4.Files.SizeLaw
import OpenExt4.Lib.Transitions

set_option autoImplicit false

/-! # Reservations are given back

Sequences of calls on a volume, and which blocks past the ends of its files were asked for. -/

namespace Files

open Batching Transitions

variable (bs : BlockSize)

/-! ## Unmounting -/

/-- `txn_drain` -/
def txnDrain (v : Vol) (t : Fate Errno) : Option Errno × Vol :=
  if v.batch.ops = 0 then (none, v)
  else
    match t.commit with
    | some e => (some e, { v with batch := v.batch.abort })
    | none => (t.flush, { v with batch := v.batch.commit })

/-- `ext4b_unmount`, which goes on behind a failure and reports the first; `rest` is that of stopping
    the journal, of `ext4_umount` and of the last flush. -/
def unmount (v : Vol) (begin : Option Errno) (trims : ℕ → Trim) (t last : Fate Errno)
    (rest : Option Errno) : Option Errno × Vol :=
  let drained := resvDrain bs v begin trims t
  let out := txnDrain drained.2 last
  (drained.1 <|> out.1 <|> rest, out.2)

/-! ## Calls -/

/-- A call on the volume; `drain` is `resv_drain`. -/
inductive Call where
  | write (env : WriteEnv) (buf : ℕ → UInt8) (ino offset count : ℕ)
  | truncate (env : TruncateEnv) (ino newSize : ℕ)
  | preallocate (env : PreallocateEnv) (ino offset length : ℕ)
  | trim (env : TrimEnv) (ino : ℕ)
  | unlink (env : UnlinkEnv) (ino : ℕ)
  | drain (begin : Option Errno) (trims : ℕ → Trim) (fate : Fate Errno)

/-- A volume, and which blocks were asked for by a successful `ext4b_preallocate` and have not been
    truncated, trimmed or deleted since. -/
structure Session where
  vol : Vol
  asked : ℕ → ℕ → Bool

def Session.file (s : Session) (ino : ℕ) : File := (s.vol.file ino).file

/-- Behind a call that may take blocks of the inode. -/
def Session.left (s : Session) (v : Vol) (ino : ℕ) : Session where
  vol := v
  asked i l := s.asked i l && (i != ino || decide ((v.file ino).file.has l))

def exec (s : Session) : Call → Session
  | .write env buf ino offset count =>
      { s with vol := (write bs s.vol env buf ino offset count).2.2 }
  | .truncate env ino newSize => s.left (truncate bs s.vol env ino newSize).2 ino
  | .preallocate env ino offset length =>
      let out := preallocateCall bs s.vol env ino offset length
      { vol := out.2.2
        asked := fun i l =>
          s.asked i l || (out.1.isNone && length != 0 && i == ino &&
            decide (offset / bs.val ≤ l ∧ l ≤ (offset + length - 1) / bs.val)) }
  | .trim env ino => s.left (trimPreallocation bs s.vol env ino).2 ino
  | .unlink env ino => s.left (unlink bs s.vol env ino).2 ino
  | .drain begin trims fate => { s with vol := (resvDrain bs s.vol begin trims fate).2 }

/-- No call is refused outright. -/
def step (s : Session) (c : Call) : Option Session := some (exec bs s c)

/-! ## The condition -/

/-- The inode holds a block past its end that nobody asked for. -/
def Spare (s : Session) (ino : ℕ) : Prop :=
  (s.file ino).links ≠ 0 ∧ ∃ l, (s.file ino).past bs l ∧ s.asked ino l = false

/-- A call that fails is alone in its transaction and taken back. -/
def TakenBack (v : Vol) : Prop := v.batch.journal = true ∧ v.batch.ops = 0

/-- The call gets to its inode and is not refused. -/
def Accepted (begin get : Option Errno) (f : File) : Prop :=
  begin = none ∧ get = none ∧ changeRefusal f = none

/-- When a call returns what is reserved. -/
def Meets (s : Session) : Call → Prop
  | .write env buf ino offset count =>
      env.fate.commit = none ∧
      blocksFor bs (offset + count) + EXT4B_RESERVE_AHEAD < 2 ^ 32 ∧
      (∀ k, (env.reserve.release k).Clean) ∧ env.reserve.evict.Clean ∧
      -- what was asked for is right behind the end, where the write looks for it
      (Reserves bs (s.file ino) offset count →
        mapRange (s.file ino) env.reserve.probe (blocksFor bs (s.file ino).size) 1 = none →
        ∀ l, blocksFor bs (s.file ino).size ≤ l → s.asked ino l = false) ∧
      -- no command fails that the end of the file waits for
      (env.answers.Smooth ∨ offset + count ≤ (s.file ino).size) ∧
      (TakenBack s.vol → Reserves bs (s.file ino) offset count →
        (write bs s.vol env buf ino offset count).1 = none)
  | .truncate env ino newSize =>
      env.fate.commit = none ∧ newSize ≤ (2 ^ 32 - 1) * bs.val ∧
      (Spare bs s ino → Accepted env.begin env.get (s.file ino) ∧
        env.removal.find = none ∧ env.removal.stops = none ∧
        blocksFor bs newSize < blocksFor bs (s.file ino).size) ∧
      -- the removal starts at a block that is there
      (Accepted env.begin env.get (s.file ino) → newSize < (s.file ino).size →
        (s.file ino).extents = true → env.removal.find = none →
        ¬ (s.file ino).has (blocksFor bs newSize) →
        ∀ l, blocksFor bs newSize ≤ l → (s.file ino).has l → s.asked ino l = true)
  | .preallocate env ino offset length =>
      let first := offset / bs.val
      let last := (offset + length - 1) / bs.val
      let out := preallocate first (last - first + 1) env.blocks 0 0 (s.vol.file ino)
      env.fate.commit = none ∧ env.fate.flush = none ∧
      (Spare bs s ino → length ≠ 0 → Accepted env.begin env.get (s.file ino) ∧
        last < 2 ^ 32 - 1 ∧ out.1 = none ∧
        ∀ l, (s.file ino).past bs l → s.asked ino l = true ∨ first ≤ l ∧ l ≤ last) ∧
      (out.1 = none ∨ out.2.1 = 0 ∨ TakenBack s.vol ∨ last < blocksFor bs (s.file ino).size)
  | .trim env ino =>
      env.fate.commit = none ∧ (Spare bs s ino → env.begin = none → env.trim.Clean)
  | .unlink env ino =>
      env.fate.commit = none ∧
      (Spare bs s ino → TakenBack s.vol → (s.file ino).links = 1 → env.refused = none →
        changeRefusal { s.file ino with directory := false } = none ∧
        env.removal.find = none ∧ env.removal.stops = none ∧ env.free = none)
  | .drain _ trims fate => fate.commit = none ∧ ∀ k, (trims k).Clean

/-! ## The property -/

/-- A block past an end that nobody asked for belongs to an inode in the table, which has eight slots. -/
def Bounded (s : Session) : Prop :=
  s.vol.resv.length = EXT4B_RESERVE_SLOTS ∧
    ∀ i l, (s.file i).links ≠ 0 → (s.file i).past bs l → s.asked i l = false →
      i ≠ 0 ∧ ∃ t ∈ s.vol.resv, t.inode = i

/-- What was asked for is still there. -/
def Kept (s : Session) : Prop :=
  ∀ i l, (s.file i).links ≠ 0 → s.asked i l = true → (s.file i).has l

/-- No slot is taken, and nothing is past an end but what was asked for. -/
def Returned (s : Session) (v : Vol) : Prop :=
  (∀ t ∈ v.resv, t.inode = 0) ∧
    ∀ i l, (v.file i).file.links ≠ 0 → (v.file i).file.past bs l → s.asked i l = true

/-- A volume as it was mounted: no slot is taken, and what is past an end counts as asked for. -/
structure Mounted (s : Session) : Prop where
  table : s.vol.resv = List.replicate EXT4B_RESERVE_SLOTS ⟨0, 0⟩
  clean : s.vol.batch.journal = true → s.vol.batch.ops = 0 → s.vol.batch.disk = s.vol.batch.cur
  zero : (s.file 0).links = 0
  small : ∀ i, blocksFor bs (s.file i).size < 2 ^ 32
  kept : Kept s
  past : ∀ i l, (s.file i).links ≠ 0 → (s.file i).past bs l → s.asked i l = true

/-! ## The ends of calls -/

/-- What every call keeps, whatever becomes of it. -/
structure Session.Ok (s : Session) : Prop where
  eight : s.vol.resv.length = EXT4B_RESERVE_SLOTS
  clean : s.vol.batch.journal = true → s.vol.batch.ops = 0 → s.vol.batch.disk = s.vol.batch.cur
  accounted : Accounted bs (fun _ => True) s.vol.batch.cur.files s.vol.resv s.asked

variable {bs}

section Ends

variable {s : Session} {v v₁ : Vol} {ino : ℕ} {t : Fate Errno} {r : Option Errno}

/-- Nobody asked for less than all that is past the end. -/
theorem unspared (h : ¬ Spare bs s ino) (hlive : (s.file ino).links ≠ 0) (l : ℕ)
    (hl : (s.file ino).past bs l) : s.asked ino l = true := by
  by_contra hno
  exact h ⟨hlive, l, hl, by simpa using hno⟩

/-- A file that has blocks to spare has a slot. -/
theorem Session.Ok.held (hs : s.Ok bs) (h : Spare bs s ino) :
    ∃ e, Held bs (s.file ino) (s.asked ino) e := by
  obtain ⟨hlive, l, hl, hasked⟩ := h
  have hobeys := hs.accounted.each ino trivial hlive
  by_contra hno
  have hnone : ∀ t ∈ s.vol.resv, t.inode ≠ ino := fun t ht hti => hno ⟨_, hobeys.held t ht hti⟩
  have hset := hobeys.settled hnone l hl
  rw [hasked] at hset
  cases hset

/-- What is gone is no longer asked for. -/
theorem Obeys.restrict {table : List Slot} {f : File} {a : ℕ → Bool} (h : Obeys bs table ino f a) :
    Obeys bs table ino f fun l => a l && decide (f.has l) where
  kept l hl := by
    simp only [Bool.and_eq_true, decide_eq_true_eq] at hl
    exact hl.2
  held t ht hti := by
    have hheld := h.held t ht hti
    exact ⟨hheld.extents, fun l hl => by simp [hheld.unasked l hl], hheld.solid, hheld.reach⟩
  settled hno l hl := by simp [h.settled hno l hl, hl.2]

/-- A file without a slot that has no more past its end than was asked for. -/
theorem Obeys.released {table : List Slot} {f : File} {a : ℕ → Bool}
    (hno : ∀ t ∈ table, t.inode ≠ ino) (hpast : ∀ l, f.past bs l → a l = true) :
    Obeys bs table ino f fun l => a l && decide (f.has l) where
  kept l hl := by
    simp only [Bool.and_eq_true, decide_eq_true_eq] at hl
    exact hl.2
  held t ht hti := absurd hti (hno t ht)
  settled _ l hl := by simp [hpast l hl, hl.2]

/-- No slot of the inode is left in the table. -/
theorem not_forgotten {files : ℕ → File} {P : ℕ → Prop} {table : List Slot} {asked : ℕ → ℕ → Bool}
    (h : Accounted bs P files table asked) (hlive : (files ino).links ≠ 0) :
    ∀ t ∈ forgotten table ino, t.inode ≠ ino := by
  intro t ht hti
  have hne : ino ≠ 0 := by
    rintro rfl
    exact hlive h.zero
  exact ((mem_forgotten hne hti).mp ht).1 rfl

/-- A call ends, and is taken back or not. -/
theorem Session.Ok.finish {asked : ℕ → ℕ → Bool} (hs : s.Ok bs)
    (hbatch : v₁.batch = s.vol.batch.set v₁.batch.cur) (height : v₁.resv.length = 8)
    (ht : t.commit = none)
    (hback : TakenBack s.vol → r ≠ none →
      Accounted bs (fun _ => True) s.vol.batch.cur.files v₁.resv asked)
    (hforth : (TakenBack s.vol → r = none) →
      Accounted bs (fun _ => True) v₁.batch.cur.files v₁.resv asked) :
    Session.Ok bs ⟨(v₁.finish t r).2, asked⟩ where
  eight := height
  clean := v₁.batch.finish_clean t r
  accounted := by
    have hcur := v₁.batch.finish_cur_of_commit ht r
    have hjournal : v₁.batch.journal = s.vol.batch.journal := by rw [hbatch]; rfl
    have hops : v₁.batch.ops = s.vol.batch.ops := by rw [hbatch]; rfl
    have hdisk : v₁.batch.disk = s.vol.batch.disk := by rw [hbatch]; rfl
    rw [hjournal, hops, hdisk] at hcur
    simp only [Vol.finish, hcur]
    split
    · next hrolled =>
        rw [hs.clean hrolled.1 hrolled.2.1]
        exact hback ⟨hrolled.1, hrolled.2.1⟩ hrolled.2.2
    · next hkept =>
        refine hforth fun htaken => ?_
        by_contra hr
        exact hkept ⟨htaken.1, htaken.2, hr⟩

/-- A call ends that changes one inode. -/
theorem Session.Ok.one {asked : ℕ → ℕ → Bool} (hs : s.Ok bs)
    (hbatch : v₁.batch = s.vol.batch.set v₁.batch.cur) (height : v₁.resv.length = 8)
    (ht : t.commit = none)
    (hfiles : v₁.batch.cur.files =
      Function.update s.vol.batch.cur.files ino (v₁.batch.cur.files ino))
    (hother : Accounted bs (· ≠ ino) s.vol.batch.cur.files v₁.resv s.asked)
    (hlinks : (s.file ino).links = 0 → (v₁.batch.cur.files ino).links = 0)
    (hsmall : blocksFor bs (v₁.batch.cur.files ino).size < 2 ^ 32)
    (hasked : ∀ i, i ≠ ino → asked i = s.asked i)
    (hback : TakenBack s.vol → r ≠ none → (s.file ino).links ≠ 0 →
      Obeys bs v₁.resv ino (s.file ino) (asked ino))
    (hforth : (TakenBack s.vol → r = none) → (v₁.batch.cur.files ino).links ≠ 0 →
      Obeys bs v₁.resv ino (v₁.batch.cur.files ino) (asked ino)) :
    Session.Ok bs ⟨(v₁.finish t r).2, asked⟩ := by
  refine hs.finish hbatch height ht (fun htaken hr => ?_) fun hkept => ?_
  · rw [← Function.update_eq_self ino s.vol.batch.cur.files]
    exact hother.change id (hs.accounted.small ino) hasked (hback htaken hr)
  · rw [hfiles]
    exact hother.change hlinks hsmall hasked (hforth hkept)

/-- A call ends that may have taken blocks of an inode. -/
theorem Session.Ok.left (hs : s.Ok bs) (hbatch : v₁.batch = s.vol.batch.set v₁.batch.cur)
    (height : v₁.resv.length = 8) (ht : t.commit = none)
    (hfiles : v₁.batch.cur.files =
      Function.update s.vol.batch.cur.files ino (v₁.batch.cur.files ino))
    (hother : Accounted bs (· ≠ ino) s.vol.batch.cur.files v₁.resv s.asked)
    (hlinks : (s.file ino).links = 0 → (v₁.batch.cur.files ino).links = 0)
    (hsmall : blocksFor bs (v₁.batch.cur.files ino).size < 2 ^ 32)
    (hback : TakenBack s.vol → r ≠ none → (s.file ino).links ≠ 0 →
      Obeys bs v₁.resv ino (s.file ino) fun l =>
        s.asked ino l && decide ((s.file ino).has l))
    (hforth : (TakenBack s.vol → r = none) → (v₁.batch.cur.files ino).links ≠ 0 →
      Obeys bs v₁.resv ino (v₁.batch.cur.files ino) fun l =>
        s.asked ino l && decide ((v₁.batch.cur.files ino).has l)) :
    (s.left (v₁.finish t r).2 ino).Ok bs := by
  have hcur := v₁.batch.finish_cur_of_commit ht r
  have hjournal : v₁.batch.journal = s.vol.batch.journal := by rw [hbatch]; rfl
  have hops : v₁.batch.ops = s.vol.batch.ops := by rw [hbatch]; rfl
  have hdisk : v₁.batch.disk = s.vol.batch.disk := by rw [hbatch]; rfl
  rw [hjournal, hops, hdisk] at hcur
  refine hs.one hbatch height ht hfiles hother hlinks hsmall (fun i hi => ?_)
    (fun htaken hr hlive => ?_) fun hkept hlive => ?_
  · funext l
    simp [hi]
  · rw [if_pos ⟨htaken.1, htaken.2, hr⟩, hs.clean htaken.1 htaken.2] at hcur
    have hfile : ((v₁.finish t r).2.file ino).file = s.file ino :=
      congrArg (fun m => m.files ino) hcur
    simp only [hfile, bne_self_eq_false, Bool.false_or]
    exact hback htaken hr hlive
  · rw [if_neg fun hrolled => hrolled.2.2 (hkept ⟨hrolled.1, hrolled.2.1⟩)] at hcur
    have hfile : ((v₁.finish t r).2.file ino).file = v₁.batch.cur.files ino :=
      congrArg (fun m => m.files ino) hcur
    simp only [hfile, bne_self_eq_false, Bool.false_or]
    exact hforth hkept hlive

/-- A call that does not get to the end of a transaction. -/
theorem Session.Ok.stay (hs : s.Ok bs) (hbatch : v.batch = s.vol.batch)
    (height : v.resv.length = 8)
    (hother : Accounted bs (· ≠ ino) s.vol.batch.cur.files v.resv s.asked)
    (hobeys : (s.file ino).links ≠ 0 → Obeys bs v.resv ino (s.file ino) fun l =>
      s.asked ino l && decide ((s.file ino).has l)) : (s.left v ino).Ok bs where
  eight := height
  clean := by
    simp only [Session.left, hbatch]
    exact hs.clean
  accounted := by
    simp only [Session.left, hbatch]
    rw [← Function.update_eq_self ino s.vol.batch.cur.files]
    refine hother.change id (hs.accounted.small ino) (fun i hi => ?_) fun hlive => ?_
    · funext l
      simp [hi]
    · have hfile : (v.file ino).file = s.file ino :=
        congrArg (fun b => b.cur.files ino) hbatch
      simp only [hfile, bne_self_eq_false, Bool.false_or]
      exact hobeys hlive

end Ends

/-! ## Each call -/

section Calls

variable {s : Session} {ino : ℕ}

theorem forget_length (hs : s.Ok bs) (ino : ℕ) : (resvForget s.vol ino).resv.length = 8 := by
  simp only [resvForget, List.length_map]
  exact hs.eight

/-- What is removed from `start` on, without extents below `stop` only: everything, unless there is no
    block to start at, or no block between the two. -/
structure Removed (d : Disk) (o : Removal) (start stop : ℕ) (out : Option Errno × Disk) : Prop where
  fewer : ∀ l, out.2.file.has l → d.file.has l
  inode : out.2.file = { d.file with blocks := out.2.file.blocks }
  clean : o.find = none → o.stops = none → out.1 = none
  behind : out.1 = none → ∀ l, start ≤ l → out.2.file.has l →
    (d.file.extents = false ∨ start = stop) ∧ stop ≤ l ∨
      d.file.extents = true ∧ o.find = none ∧ ¬ d.file.has start

theorem removed_remove (d : Disk) (o : Removal) (start stop : ℕ) (r : Option Errno)
    (p : ℕ → Bool) (hclean : o.stops = none → r = none)
    (hp : r = none → ∀ l, start ≤ l → p l = true ∨ d.file.extents = false ∧ stop ≤ l) :
    Removed d o start stop (r, d.remove p) where
  fewer l hl := ((remove_has ..).mp hl).1
  inode := rfl
  clean _ hstops := hclean hstops
  behind hr l hl hhas := by
    rcases hp hr l hl with hgone | ⟨hext, hle⟩
    · rw [((remove_has ..).mp hhas).2] at hgone
      cases hgone
    · exact .inl ⟨.inl hext, hle⟩

theorem removeSpace_removed (d : Disk) (o : Removal) (start stop : ℕ)
    (hext : d.file.extents = true) : Removed d o start stop (removeSpace d o start) := by
  simp only [removeSpace]
  split
  · next e hfind =>
      exact ⟨fun _ h => h, rfl, fun h => (by rw [hfind] at h; cases h), fun h => by cases h⟩
  · next hfind =>
      split
      · next hhole =>
          exact ⟨fun _ h => h, rfl, fun _ _ => rfl, fun _ l _ _ => .inr ⟨hext, hfind,
            fun hhas => hhas hhole⟩⟩
      · split
        · next e n hstops =>
            exact removed_remove d o start stop _ _ (fun h => (by rw [hstops] at h; cases h))
              fun h => by cases h
        · exact removed_remove d o start stop _ _ (fun _ => rfl) fun _ l hl => .inl (by simpa using hl)

/-- A truncation takes blocks at the end only, and all of them unless it finds none to start at. -/
theorem truncateInode_spec (bs : BlockSize) (d : Disk) (o : Removal) (newSize : ℕ)
    (hold : blocksFor bs d.file.size < 2 ^ 32) (hnew : blocksFor bs newSize < 2 ^ 32) :
    let out := truncateInode bs d o newSize
    (∀ l, out.2.file.has l → d.file.has l) ∧ out.2.file.links = d.file.links ∧
      (out.2.file.size = d.file.size ∨ out.1 = none ∧ out.2.file.size = newSize) ∧
      (d.file.appendOnly = false → d.file.immutable = false → o.find = none → o.stops = none →
        newSize ≤ d.file.size → out.1 = none) ∧
      (out.1 = none → newSize < d.file.size → out.2.file.size = newSize ∧
        ∀ l, blocksFor bs newSize ≤ l → out.2.file.has l →
          (d.file.extents = false ∨ blocksFor bs newSize = blocksFor bs d.file.size) ∧
              blocksFor bs d.file.size ≤ l ∨
            d.file.extents = true ∧ o.find = none ∧ ¬ d.file.has (blocksFor bs newSize)) := by
  simp only [truncateInode, u32_of_lt hold, u32_of_lt hnew]
  split
  · next hflags =>
      refine ⟨fun _ h => h, rfl, .inl rfl, fun happend himmutable => ?_, fun h => by cases h⟩
      simp [happend, himmutable] at hflags
  · split
    · next hdone =>
        exact ⟨fun _ h => h, rfl, .inl rfl, fun _ _ _ _ _ => rfl,
          fun _ hlt => absurd hdone.1 (Nat.ne_of_gt hlt)⟩
    split
    · next hgrows =>
        exact ⟨fun _ h => h, rfl, .inl rfl, fun _ _ _ _ hle => absurd hgrows (Nat.not_lt.mpr hle),
          fun h => by cases h⟩
    · generalize hout : ite (d.file.extents = true) _ _ = out
      have hremoved : Removed d o (blocksFor bs newSize) (blocksFor bs d.file.size) out := by
        rw [← hout]
        split
        · next hext =>
            split
            · exact removeSpace_removed d o _ _ hext
            · next hsame =>
                simp only [not_or, ne_eq, not_not] at hsame
                exact ⟨fun _ h => h, rfl, fun _ _ => rfl, fun _ l hl _ =>
                  .inl ⟨.inr hsame.1.symm, hsame.1 ▸ hl⟩⟩
        · next hext =>
            have hpointers : d.file.extents = false := by simpa using hext
            have hbelow : ∀ l, blocksFor bs newSize ≤ l →
                (blocksFor bs newSize ≤ l && l < blocksFor bs d.file.size) = true ∨
                  d.file.extents = false ∧ blocksFor bs d.file.size ≤ l := by
              intro l hl
              by_cases hlt : l < blocksFor bs d.file.size
              · exact .inl (by simp [hl, hlt])
              · exact .inr ⟨hpointers, Nat.le_of_not_lt hlt⟩
            split
            · next e n hstops =>
                split
                · exact removed_remove d o _ _ _ _ (fun h => (by rw [hstops] at h; cases h))
                    fun h => by cases h
                · exact removed_remove d o _ _ _ _ (fun _ => rfl) fun _ => hbelow
            · exact removed_remove d o _ _ _ _ (fun _ => rfl) fun _ => hbelow
      obtain ⟨r, d'⟩ := out
      have hinode : d'.file = { d.file with blocks := d'.file.blocks } := hremoved.inode
      have hlinks : d'.file.links = d.file.links := by rw [hinode]
      have hsize : d'.file.size = d.file.size := by rw [hinode]
      cases r with
      | some e =>
          refine ⟨hremoved.fewer, hlinks, .inl hsize, fun _ _ hfind hstops _ => ?_,
            fun h => by cases h⟩
          cases hremoved.clean hfind hstops
      | none =>
          exact ⟨hremoved.fewer, hlinks, .inr ⟨rfl, rfl⟩, fun _ _ _ _ _ => rfl,
            fun _ _ => ⟨rfl, hremoved.behind rfl⟩⟩

/-- The inode of a call is off the table, and the call ends without a change of it. -/
theorem Session.Ok.refuse (hs : s.Ok bs) {t : Fate Errno} (ht : t.commit = none)
    (r : Option Errno) (hspare : ¬ Spare bs s ino) :
    (s.left ((resvForget s.vol ino).finish t r).2 ino).Ok bs :=
  have hother := hs.accounted.forget ino
  have hobeys : (s.file ino).links ≠ 0 → Obeys bs (resvForget s.vol ino).resv ino (s.file ino)
      fun l => s.asked ino l && decide ((s.file ino).has l) :=
    fun hlive => Obeys.released (not_forgotten hs.accounted hlive) (unspared hspare hlive)
  hs.left rfl (forget_length hs ino) ht (Function.update_eq_self ino _).symm hother id
    (hs.accounted.small ino) (fun _ _ => hobeys) fun _ => hobeys

theorem Session.Ok.forget (hs : s.Ok bs) (hspare : ¬ Spare bs s ino) :
    (s.left (resvForget s.vol ino) ino).Ok bs :=
  have hother := hs.accounted.forget ino
  hs.stay rfl (forget_length hs ino) hother fun hlive =>
    Obeys.released (not_forgotten hs.accounted hlive) (unspared hspare hlive)

/-- The inode of a call is off the table, and the call ends with fewer blocks of it. -/
theorem Session.Ok.take (hs : s.Ok bs) {t : Fate Errno} (ht : t.commit = none)
    {r : Option Errno} {d : Disk} (hlinks : (s.file ino).links = 0 → d.file.links = 0)
    (hsmall : blocksFor bs d.file.size < 2 ^ 32)
    (hspare : TakenBack s.vol → r ≠ none → ¬ Spare bs s ino)
    (hlive : d.file.links ≠ 0 → (s.file ino).links ≠ 0)
    (hpast : d.file.links ≠ 0 → ∀ l, d.file.past bs l → s.asked ino l = true) :
    (s.left (((resvForget s.vol ino).put ino d).finish t r).2 ino).Ok bs := by
  have hother := hs.accounted.forget ino
  have hself := put_files_self (resvForget s.vol ino) ino d
  refine hs.left rfl (forget_length hs ino) ht (by rw [hself]; rfl) hother
    (fun hdead => by rw [hself]; exact hlinks hdead) (by rw [hself]; exact hsmall)
    (fun htaken hr hlive' => ?_) fun _ hlive' => ?_
  · exact Obeys.released (not_forgotten hs.accounted hlive') (unspared (hspare htaken hr) hlive')
  · rw [hself] at hlive' ⊢
    exact Obeys.released (not_forgotten hs.accounted (hlive hlive')) (hpast hlive')

/-- A part of a call that takes blocks of the inode: if it fails there was nothing to spare, and it
    leaves nothing past the end but what was asked for. -/
structure TakesFrom (bs : BlockSize) (s : Session) (ino : ℕ) (out : Option Errno × Disk) : Prop where
  links : out.2.file.links = (s.file ino).links
  small : blocksFor bs out.2.file.size < 2 ^ 32
  spare : out.1 ≠ none → ¬ Spare bs s ino
  past : (s.file ino).links ≠ 0 → ∀ l, out.2.file.past bs l → s.asked ino l = true

/-- Nothing was to spare, and nothing is gained past the end. -/
theorem TakesFrom.unchanged {r : Option Errno} {d : Disk} (hspare : ¬ Spare bs s ino)
    (hlinks : d.file.links = (s.file ino).links) (hsize : (s.file ino).size ≤ d.file.size)
    (hsmall : blocksFor bs d.file.size < 2 ^ 32) (hhas : ∀ l, d.file.has l → (s.file ino).has l) :
    TakesFrom bs s ino (r, d) where
  links := hlinks
  small := hsmall
  spare _ := hspare
  past hlive l hl :=
    unspared hspare hlive l ⟨(blocksFor_mono bs hsize).trans hl.1, hhas l hl.2⟩

/-- The times of the inode do not matter. -/
theorem TakesFrom.touch {out : Option Errno × Disk} (h : TakesFrom bs s ino out) (c : Prop)
    [Decidable c] (now : ℕ) : TakesFrom bs s ino (out.1, if c then out.2.touch now else out.2) := by
  split
  · exact ⟨h.links, h.small, h.spare, h.past⟩
  · exact h

theorem Session.Ok.taken (hs : s.Ok bs) {t : Fate Errno} (ht : t.commit = none)
    {out : Option Errno × Disk} (h : TakesFrom bs s ino out) :
    (s.left (((resvForget s.vol ino).put ino out.2).finish t out.1).2 ino).Ok bs :=
  hs.take ht (fun hdead => h.links.trans hdead) h.small (fun _ => h.spare) (fun hlive => h.links ▸ hlive)
    fun hlive => h.past (h.links ▸ hlive)

theorem changeRefusal_flags {f : File} (h : changeRefusal f = none) :
    f.appendOnly = false ∧ f.immutable = false := by
  simp only [changeRefusal] at h
  split at h
  · cases h
  · split at h
    · cases h
    · next hflags => simpa [and_comm] using hflags

theorem zeroExposedRange_file (bs : BlockSize) (ts : List ZeroTurn) (pos stop : ℕ) (d : Disk) :
    (zeroExposedRange bs ts pos stop d).2.file = d.file := by
  induction ts generalizing pos d with
  | nil => rfl
  | cons t ts ih =>
      simp only [zeroExposedRange]
      split
      · rfl
      · split
        · rfl
        · split
          · split
            · rfl
            · split
              · rfl
              · exact ih _ _
          · rfl

/-- What a truncation leaves, whether it shrinks the file or lets it grow. -/
theorem truncate_takes (hs : s.Ok bs) {env : TruncateEnv} {newSize : ℕ}
    (hmeets : Meets bs s (.truncate env ino newSize))
    (haccepted : Accepted env.begin env.get (s.file ino)) :
    TakesFrom bs s ino
    (if newSize < (s.file ino).size then
      truncateInode bs (s.vol.file ino) env.removal newSize
    else if (s.file ino).size < newSize then
      if env.noMemory = true then (some Errno.ENOMEM, s.vol.file ino)
      else
        match zeroExposedRange bs env.zeros (s.file ino).size newSize
          (s.vol.file ino) with
        | (some e, d) => (some e, d)
        | (none, d) => (none, d.setSize newSize)
    else (none, s.vol.file ino)) := by
  obtain ⟨-, hnum, hspare, hhole⟩ := hmeets
  have hnew : blocksFor bs newSize < 2 ^ 32 := by
    have hmono := blocksFor_mono bs hnum
    rw [blocksFor_mul] at hmono
    omega
  obtain ⟨happend, himmutable⟩ : (s.file ino).appendOnly = false ∧
      (s.file ino).immutable = false := changeRefusal_flags haccepted.2.2
  have hspec := truncateInode_spec bs (s.vol.file ino) env.removal newSize
    (hs.accounted.small ino) hnew
  have hshrinks : Spare bs s ino → newSize < (s.file ino).size := by
    intro hsp
    by_contra hle
    exact absurd (hspare hsp).2.2.2
      (Nat.not_lt.mpr (blocksFor_mono bs (Nat.le_of_not_lt hle)))
  split
  · next hlt =>
      obtain ⟨hfewer, hlinks, hsize, hclean, hbehind⟩ := hspec
      have hns : (truncateInode bs (s.vol.file ino) env.removal newSize).1 ≠ none →
          ¬ Spare bs s ino := fun hr hsp =>
        hr (hclean happend himmutable (hspare hsp).2.1 (hspare hsp).2.2.1 (Nat.le_of_lt hlt))
      refine ⟨hlinks, ?_, hns, fun hlive l hl => ?_⟩
      · rcases hsize with hsame | ⟨-, hshrunk⟩
        · rw [hsame]
          exact hs.accounted.small ino
        · rw [hshrunk]
          exact hnew
      · by_cases hr : (truncateInode bs (s.vol.file ino) env.removal newSize).1 = none
        · obtain ⟨hsize', hbehind⟩ := hbehind hr hlt
          rw [File.past, hsize'] at hl
          rcases hbehind l hl.1 hl.2 with ⟨hwhy, hge⟩ | ⟨hext, hfind, hnone⟩
          · refine unspared (fun hsp => ?_) hlive l ⟨hge, hfewer l hl.2⟩
            rcases hwhy with hpointers | hsame
            · obtain ⟨e, he⟩ := hs.held hsp
              exact Bool.false_ne_true (hpointers.symm.trans he.extents)
            · exact absurd hsame (Nat.ne_of_lt (hspare hsp).2.2.2)
          · exact hhole haccepted hlt hext hfind hnone l hl.1 (hfewer l hl.2)
        · have hsame := hsize.resolve_right fun h => hr h.1
          rw [File.past, hsame] at hl
          exact unspared (hns hr) hlive l ⟨hl.1, hfewer l hl.2⟩
  · next hge =>
      have hns : ¬ Spare bs s ino := fun hsp => hge (hshrinks hsp)
      have hsame : ∀ r, TakesFrom bs s ino (r, s.vol.file ino) := fun r =>
        TakesFrom.unchanged hns rfl (Nat.le_refl _) (hs.accounted.small ino)
          fun _ h => h
      split
      · next hgrows =>
          split
          · exact hsame _
          · have hfile := zeroExposedRange_file bs env.zeros (s.file ino).size newSize
              (s.vol.file ino)
            generalize zeroExposedRange bs env.zeros (s.file ino).size newSize
              (s.vol.file ino) = z at hfile ⊢
            obtain ⟨r, d⟩ := z
            have hf : d.file = s.file ino := hfile
            cases r with
            | some e =>
                exact TakesFrom.unchanged hns (by rw [hf]) (by rw [hf])
                  (by rw [hf]; exact hs.accounted.small ino) fun l hl => hf ▸ hl
            | none =>
                exact TakesFrom.unchanged hns (by simp only [Disk.setSize]; rw [hf])
                  (Nat.le_of_lt hgrows) hnew fun l hl => hf ▸ hl
      · exact hsame _

theorem truncate_ok (hs : s.Ok bs) {env : TruncateEnv} {newSize : ℕ}
    (hmeets : Meets bs s (.truncate env ino newSize)) :
    (exec bs s (.truncate env ino newSize)).Ok bs := by
  have hcommit := hmeets.1
  have hspare := hmeets.2.2.1
  simp only [exec, truncate]
  cases hbegin : env.begin with
  | some e =>
      refine hs.forget fun hsp => ?_
      rw [(hspare hsp).1.1] at hbegin
      cases hbegin
  | none =>
      cases hget : env.get with
      | some e =>
          refine hs.refuse hcommit _ fun hsp => ?_
          rw [(hspare hsp).1.2.1] at hget
          cases hget
      | none =>
          cases hrefusal : changeRefusal ((resvForget s.vol ino).file ino).file with
          | some e =>
              refine hs.refuse hcommit _ fun hsp => ?_
              rw [show (resvForget s.vol ino).file ino = s.vol.file ino from rfl,
                show (s.vol.file ino).file = s.file ino from rfl, (hspare hsp).1.2.2] at hrefusal
              cases hrefusal
          | none =>
              have htakes := truncate_takes hs hmeets ⟨hbegin, hget, hrefusal⟩
              exact hs.taken hcommit (htakes.touch _ env.now)

/-- A call that does not get to the inode. -/
theorem Session.Ok.same (hs : s.Ok bs) (ino : ℕ) : (s.left s.vol ino).Ok bs :=
  hs.stay rfl hs.eight (hs.accounted.mono fun _ _ _ => trivial) fun hlive =>
    (hs.accounted.each ino trivial hlive).restrict

theorem trim_ok (hs : s.Ok bs) {env : TrimEnv} (hmeets : Meets bs s (.trim env ino)) :
    (exec bs s (.trim env ino)).Ok bs := by
  obtain ⟨hcommit, hspare⟩ := hmeets
  simp only [exec, trimPreallocation]
  cases hbegin : env.begin with
  | some e => exact hs.same ino
  | none =>
      have htrim := trim_trimmed bs (resvForget s.vol ino) env.trim ino
      have hsize := htrim.framed.size ino
      have hlinks := htrim.framed.links ino
      refine hs.left htrim.framed.batch (by rw [htrim.resv]; exact forget_length hs ino) hcommit
        htrim.files (htrim.resv ▸ hs.accounted.forget ino) (fun hdead => hlinks.trans hdead)
        (hsize ▸ hs.accounted.small ino) (fun _ hr hlive => ?_) fun _ hlive => ?_
      · rw [htrim.resv]
        exact Obeys.released (not_forgotten hs.accounted hlive)
          (unspared (fun hsp => hr ((hspare hsp hbegin).trims _ _)) hlive)
      · rw [htrim.resv]
        have hlive' : (s.file ino).links ≠ 0 := hlinks ▸ hlive
        refine Obeys.released (not_forgotten hs.accounted hlive') fun l hl => ?_
        by_cases hsp : Spare bs s ino
        · obtain ⟨e, he⟩ := hs.held hsp
          have hgone := (trim_settles ((hspare hsp hbegin).trims (resvForget s.vol ino) ino) hlive'
            (hs.accounted.small ino) he l).mp hl.2
          have hge := hl.1
          rw [hsize] at hge
          exact absurd hgone.2 (Nat.not_lt.mpr hge)
        · have hge := hl.1
          rw [hsize] at hge
          exact unspared hsp hlive' l ⟨hge, htrim.fewer l hl.2⟩

/-- A file is deleted, unless the call is taken back. -/
theorem delete_ok (hs : s.Ok bs) {t : Fate Errno} (ht : t.commit = none) (o : Removal)
    (free : Option Errno) {d : Disk} (hsize : d.file.size = (s.file ino).size)
    (hdead : d.file.links = 0)
    (hspare : TakenBack s.vol → Spare bs s ino → d.file.appendOnly = false ∧
      d.file.immutable = false ∧ o.find = none ∧ o.stops = none ∧ free = none) :
    (s.left (((resvForget s.vol ino).put ino (truncateInode bs d o 0).2).finish t
      (if (truncateInode bs d o 0).1 = none then free else (truncateInode bs d o 0).1)).2 ino).Ok
        bs := by
  have hzero : blocksFor bs 0 < 2 ^ 32 := by
    have hmul := blocksFor_mul bs 0
    rw [Nat.zero_mul] at hmul
    omega
  have hold : blocksFor bs d.file.size < 2 ^ 32 := hsize ▸ hs.accounted.small ino
  obtain ⟨-, hlinks, hsize', hclean, -⟩ := truncateInode_spec bs d o 0 hold hzero
  have hgone := hlinks.trans hdead
  refine hs.take ht (fun _ => hgone) ?_ (fun htaken hr hsp => ?_)
    (fun hlive => absurd hgone hlive) fun hlive => absurd hgone hlive
  · rcases hsize' with hsame | ⟨-, hsame⟩
    · rw [hsame]
      exact hold
    · rw [hsame]
      exact hzero
  · obtain ⟨happend, himmutable, hfind, hstops, hfree⟩ := hspare htaken hsp
    exact hr ((if_pos (hclean happend himmutable hfind hstops (Nat.zero_le _))).trans hfree)

/-- A file keeps its blocks and has another name left. -/
theorem relink_ok (hs : s.Ok bs) {t : Fate Errno} (ht : t.commit = none) {d : Disk}
    (hsize : d.file.size = (s.file ino).size) (hext : d.file.extents = (s.file ino).extents)
    (hhas : ∀ l, d.file.has l ↔ (s.file ino).has l) (hlinks : (s.file ino).links ≠ 0) :
    (s.left ((s.vol.put ino d).finish t none).2 ino).Ok bs := by
  have hself := put_files_self s.vol ino d
  have hsmall : blocksFor bs d.file.size < 2 ^ 32 := hsize ▸ hs.accounted.small ino
  refine hs.left rfl hs.eight ht (by rw [hself]; rfl) (hs.accounted.mono fun _ _ _ => trivial)
    (fun hdead => absurd hdead hlinks) (by rw [hself]; exact hsmall) (fun _ hr => absurd rfl hr)
    fun _ _ => ?_
  rw [hself]
  exact ((hs.accounted.each ino trivial hlinks).same hsize hext hhas).restrict

theorem unlink_ok (hs : s.Ok bs) {env : UnlinkEnv} (hmeets : Meets bs s (.unlink env ino)) :
    (exec bs s (.unlink env ino)).Ok bs := by
  obtain ⟨hcommit, hspare⟩ := hmeets
  simp only [exec, unlink]
  cases hrefused : env.refused with
  | some e =>
      exact hs.left rfl hs.eight hcommit (Function.update_eq_self ino _).symm
        (hs.accounted.mono fun _ _ _ => trivial) id (hs.accounted.small ino)
        (fun _ _ hlive => (hs.accounted.each ino trivial hlive).restrict)
        fun _ hlive => (hs.accounted.each ino trivial hlive).restrict
  | none =>
      dsimp only
      split
      · next hlast =>
          refine delete_ok hs hcommit env.removal env.free rfl hlast fun htaken hsp => ?_
          have hone : (s.file ino).links = 1 := by
            have hlive := hsp.1
            have hlast' : (s.file ino).links - 1 = 0 := hlast
            omega
          obtain ⟨hflags, hfind, hstops, hfree⟩ := hspare hsp htaken hone hrefused
          obtain ⟨happend, himmutable⟩ := changeRefusal_flags hflags
          exact ⟨happend, himmutable, hfind, hstops, hfree⟩
      · next hnames =>
          refine relink_ok hs hcommit rfl rfl (fun _ => Iff.rfl) fun hdead => hnames ?_
          have hdead' : (s.vol.file ino).file.links = 0 := hdead
          rw [hdead']

/-- The inode of a call is off the table, and nothing else has happened. -/
theorem Session.Ok.dropped (hs : s.Ok bs) (hspare : ¬ Spare bs s ino) :
    Accounted bs (fun _ => True) s.vol.batch.cur.files (forgotten s.vol.resv ino) s.asked := by
  have hothers : Accounted bs (· ≠ ino) s.vol.batch.cur.files (forgotten s.vol.resv ino) s.asked :=
    hs.accounted.forget ino
  have hchange := hothers.change (f := s.file ino) id
    (hs.accounted.small ino) (fun _ _ => rfl) fun hlive => by
      have hne : ino ≠ 0 := by
        rintro rfl
        exact hlive hs.accounted.zero
      exact (hs.accounted.each ino trivial hlive).forget hne (unspared hspare hlive)
  rwa [show s.file ino = s.vol.batch.cur.files ino from rfl, Function.update_eq_self] at hchange

/-- A preallocation covers what it was asked for, or leaves nothing past the end, or is taken back. -/
theorem preallocate_obeys (hs : s.Ok bs) {first last : ℕ} {out : Option Errno × ℕ × Disk}
    {asked : ℕ → Bool} (hle : first ≤ last)
    (hcovers : Covers first (last - first + 1) 0 0 (s.vol.file ino) out)
    (hlive : (s.file ino).links ≠ 0)
    (hasked : ∀ l, asked l = true ↔
      s.asked ino l = true ∨ out.1 = none ∧ first ≤ l ∧ l ≤ last)
    (hspare : Spare bs s ino → ∀ l, (s.file ino).past bs l → asked l = true)
    (hall : out.1 = none ∨ out.2.1 = 0 ∨ last < blocksFor bs (s.file ino).size) :
    Obeys bs (forgotten s.vol.resv ino) ino out.2.2.file asked where
  kept l hl := by
    obtain ⟨m, -, -, hcount, hcovered, hgains⟩ := hcovers.covered
    rcases (hasked l).mp hl with hold | ⟨hok, hfirst, hlast⟩
    · exact hgains.keeps l ((hs.accounted.each ino trivial hlive).kept l hold)
    · have hm := hcount hok
      exact hcovered l hfirst (by omega)
  held t ht hti := absurd hti (not_forgotten hs.accounted hlive t ht)
  settled _ l hl := by
    have hold : (s.file ino).has l → asked l = true := by
      intro hhas
      have hpast : (s.file ino).past bs l := ⟨hcovers.size ▸ hl.1, hhas⟩
      by_cases hsp : Spare bs s ino
      · exact hspare hsp l hpast
      · exact (hasked l).mpr (.inl (unspared hsp hlive l hpast))
    rcases hcovers.within.fresh l hl.2 with hhas | ⟨hfirst, hlast⟩
    · exact hold hhas
    · rcases hall with hok | hzero | hbefore
      · exact (hasked l).mpr (.inr ⟨hok, hfirst, by omega⟩)
      · exact hold (((hcovers.none hzero).fresh l hl.2).resolve_right id)
      · have hge := hl.1
        rw [hcovers.size] at hge
        exact absurd (Nat.lt_of_le_of_lt (show l ≤ last by omega) hbefore) (Nat.not_lt.mpr hge)

theorem Session.Ok.dropAll {asked : ℕ → ℕ → Bool} (hs : s.Ok bs) {t : Fate Errno}
    (ht : t.commit = none) (r : Option Errno) (hspare : ¬ Spare bs s ino)
    (hasked : asked = s.asked) : Session.Ok bs ⟨((resvForget s.vol ino).finish t r).2, asked⟩ := by
  subst hasked
  exact hs.finish rfl (forget_length hs ino) ht (fun _ _ => hs.dropped hspare) fun _ =>
    hs.dropped hspare

theorem preallocate_ok (hs : s.Ok bs) {env : PreallocateEnv} {offset length : ℕ}
    (hmeets : Meets bs s (.preallocate env ino offset length)) :
    (exec bs s (.preallocate env ino offset length)).Ok bs := by
  obtain ⟨hcommit, hflush, hspare, hall⟩ := hmeets
  have hfailed : ∀ (r : Option Errno) (e : Errno), r = some e →
      (fun i l => s.asked i l || (r.isNone && length != 0 && i == ino &&
        decide (offset / bs.val ≤ l ∧ l ≤ (offset + length - 1) / bs.val))) = s.asked := by
    rintro r e rfl
    simp
  have hfails : ∀ e, ((resvForget s.vol ino).finish env.fate (some e)).1 = some e :=
    fun e => Batch.finish_some _ hcommit e
  simp only [exec, preallocateCall]
  by_cases hlength : length = 0
  · subst hlength
    simp only [if_true, Option.isNone_none, bne_self_eq_false, Bool.and_false, Bool.false_and,
      Bool.or_false]
    exact hs
  · rw [if_neg hlength]
    cases hbegin : env.begin with
    | some e =>
        dsimp only
        rw [hfailed _ e rfl]
        refine ⟨forget_length hs ino, hs.clean, hs.dropped fun hsp => ?_⟩
        rw [(hspare hsp hlength).1.1] at hbegin
        cases hbegin
    | none =>
    cases hget : env.get with
    | some e =>
        refine hs.dropAll hcommit _ (fun hsp => ?_) (hfailed _ e (hfails e))
        rw [(hspare hsp hlength).1.2.1] at hget
        cases hget
    | none =>
    cases hrefusal : changeRefusal ((resvForget s.vol ino).file ino).file with
    | some e =>
        refine hs.dropAll hcommit _ (fun hsp => ?_) (hfailed _ e (hfails e))
        rw [show (resvForget s.vol ino).file ino = s.vol.file ino from rfl,
          show (s.vol.file ino).file = s.file ino from rfl, (hspare hsp hlength).1.2.2] at hrefusal
        cases hrefusal
    | none =>
    dsimp only
    split
    · next hpointers =>
        refine hs.dropAll hcommit _ (fun hsp => ?_) (hfailed _ _ (hfails _))
        obtain ⟨e, he⟩ := hs.held hsp
        exact Bool.false_ne_true (Eq.trans hpointers.symm he.extents)
    · split
      · next hbig =>
          refine hs.dropAll hcommit _ (fun hsp => ?_) (hfailed _ _ (hfails _))
          exact absurd (hspare hsp hlength).2.1 (Nat.not_lt.mpr hbig)
      · next hsmall =>
          have hle : offset / bs.val ≤ (offset + length - 1) / bs.val :=
            Nat.div_le_div_right (by omega)
          have hcovers := preallocate_covers (d := s.vol.file ino) (offset / bs.val)
            ((offset + length - 1) / bs.val - offset / bs.val + 1) (by omega) env.blocks
            (Nat.le_refl 0) (fun l hl hlt => absurd hlt (Nat.not_lt.mpr hl))
          rw [show (resvForget s.vol ino).file ino = s.vol.file ino from rfl]
          generalize preallocate (offset / bs.val) _ env.blocks 0 0 (s.vol.file ino) = out
            at hcovers hspare hall ⊢
          have hself := put_files_self (resvForget s.vol ino) ino out.2.2
          have hresult : (((resvForget s.vol ino).put ino out.2.2).finish env.fate out.1).1 = out.1 :=
            Batch.finish_result _ hcommit hflush out.1
          have hlinks : out.2.2.file.links = (s.file ino).links := by
            rw [hcovers.within.inode]
            rfl
          have hold : blocksFor bs out.2.2.file.size < 2 ^ 32 :=
            hcovers.size ▸ hs.accounted.small ino
          rw [hresult]
          refine hs.one rfl (forget_length hs ino) hcommit (by rw [hself]; rfl)
            (hs.accounted.forget ino) (fun hdead => by rw [hself]; exact hlinks.trans hdead)
            (by rw [hself]; exact hold) (fun i hi => by funext l; simp [hi])
            (fun _ hr hlive => ?_) fun hkept hlive => ?_
          · -- taken back, it had nothing to spare
            obtain ⟨e, he⟩ := Option.ne_none_iff_exists'.mp hr
            have hns : ¬ Spare bs s ino := fun hsp => hr (hspare hsp hlength).2.2.1
            rw [congrFun (hfailed _ e he) ino]
            exact (hs.dropped hns).each ino trivial hlive
          · rw [hself] at hlive ⊢
            refine preallocate_obeys hs hle hcovers (hlinks ▸ hlive) (fun l => ?_) (fun hsp l hl => ?_) ?_
            · simp only [Bool.or_eq_true, Bool.and_eq_true, Option.isNone_iff_eq_none, bne_iff_ne,
                beq_iff_eq, decide_eq_true_eq]
              tauto
            · obtain ⟨-, -, hok, hcovered⟩ := hspare hsp hlength
              simp only [Bool.or_eq_true, Bool.and_eq_true, Option.isNone_iff_eq_none, bne_iff_ne,
                beq_iff_eq, decide_eq_true_eq]
              exact (hcovered l hl).imp_right fun hrange => ⟨⟨⟨hok, hlength⟩, trivial⟩, hrange⟩
            · rcases hall with hok | hzero | htaken | hbefore
              · exact .inl hok
              · exact .inr (.inl hzero)
              · exact .inl (hkept htaken)
              · exact .inr (.inr hbefore)

theorem drain_ok (hs : s.Ok bs) {begin : Option Errno} {trims : ℕ → Trim} {fate : Fate Errno}
    (hmeets : Meets bs s (.drain begin trims fate)) :
    (exec bs s (.drain begin trims fate)).Ok bs := by
  obtain ⟨hcommit, hclean⟩ := hmeets
  simp only [exec, resvDrain]
  cases begin with
  | some e => exact hs
  | none =>
      have hok : (resvReleaseAll bs s.vol trims).1 = none := releaseSlots_clean bs hclean 0 _ _
      obtain ⟨hframed, hresv⟩ := releaseSlots_framed bs trims 0 s.vol.resv
        { s.vol with resv := s.vol.resv.map fun t => ⟨0, t.endLblk⟩ }
      have hlen : (resvReleaseAll bs s.vol trims).2.resv.length = 8 := by
        simp only [resvReleaseAll, hresv, List.length_map]
        exact hs.eight
      exact hs.finish hframed.batch hlen hcommit (fun _ hr => absurd hok hr) fun _ =>
        (releaseAll_accounted hs.accounted hok).1

theorem write_ok (hs : s.Ok bs) {env : WriteEnv} {buf : ℕ → UInt8} {offset count : ℕ}
    (hmeets : Meets bs s (.write env buf ino offset count)) :
    (exec bs s (.write env buf ino offset count)).Ok bs := by
  obtain ⟨hcommit, hfits, hrelease, hevict, hhole, hsmooth, htaken⟩ := hmeets
  have hrefuse : ∀ e, Session.Ok bs ⟨(s.vol.finish env.fate (some e)).2, s.asked⟩ := fun e =>
    hs.finish rfl hs.eight hcommit (fun _ _ => hs.accounted) fun _ => hs.accounted
  simp only [exec]
  simp only [write] at htaken ⊢
  split
  · exact hs
  · next hcount =>
      simp only [if_neg hcount] at htaken
      cases hbegin : env.begin with
      | some e => exact hs
      | none =>
      rw [hbegin] at htaken
      cases hget : env.get with
      | some e => exact hrefuse e
      | none =>
      rw [hget] at htaken
      cases hrefusal : writeRefusal bs (s.vol.file ino).file offset count with
      | some e => exact hrefuse e
      | none =>
      rw [hrefusal] at htaken
      obtain ⟨hok, hlen, hframed, haccounted⟩ :=
        reserveAhead_accounted hs.accounted hs.eight hrelease hevict hfits hhole
      have hidle : ¬ Reserves bs (s.file ino) offset count →
          reserveAhead bs s.vol env.reserve ino offset count = (none, s.vol) := fun hno => if_neg hno
      generalize reserveAhead bs s.vol env.reserve ino offset count = ahead
        at hok hlen hframed haccounted hidle htaken ⊢
      obtain ⟨e, v'⟩ := ahead
      subst hok
      have hnum : Numbered bs offset count (v'.file ino).file.size := by
        refine ⟨?_, haccounted.small ino⟩
        have hle := le_blocksFor_mul bs (offset + count)
        have hmul := Nat.mul_le_mul_right bs.val
          (show blocksFor bs (offset + count) ≤ 2 ^ 32 - 1 by omega)
        omega
      obtain ⟨hsize, hsmall, hgains, hall⟩ := writeBody_gains buf env.answers hnum
      have hfilled : Gains (fun l => l < blocksFor bs
          (writeBody bs buf env.answers (v'.file ino) offset count).2.2.file.size) (v'.file ino)
          (writeBody bs buf env.answers (v'.file ino) offset count).2.2 := by
        rcases hsmooth with hsmooth | hinside
        · exact hall hsmooth
        · refine hgains.mono fun l hl => lt_blocksFor ?_
          have hsame : (v'.file ino).file.size = (s.file ino).size := hframed.size ino
          omega
      dsimp only at htaken ⊢
      generalize writeBody bs buf env.answers (v'.file ino) offset count = body
        at hsize hsmall hfilled htaken ⊢
      have hlinks : body.2.2.file.links = (v'.file ino).file.links := by rw [hfilled.inode]
      have hbatch : (v'.put ino body.2.2).batch =
          s.vol.batch.set (v'.put ino body.2.2).batch.cur := by
        rw [show (v'.put ino body.2.2).batch = v'.batch.set (v'.put ino body.2.2).batch.cur from rfl,
          hframed.batch]
        rfl
      refine hs.finish hbatch hlen hcommit (fun hback hr => ?_) fun _ => ?_
      · by_cases hreserves : Reserves bs (s.file ino) offset count
        · exact absurd (Batch.finish_none (htaken hback hreserves)) hr
        · have hsame : v' = s.vol := congrArg Prod.snd (hidle hreserves)
          rw [show (v'.put ino body.2.2).resv = v'.resv from rfl, hsame]
          exact hs.accounted
      · refine (haccounted.mono fun _ _ _ => trivial).change (fun hdead => hlinks.trans hdead) hsmall
          (fun _ _ => rfl) fun hlive => ?_
        exact (haccounted.each ino trivial (hlinks ▸ hlive)).grows hsize hfilled

end Calls

/-! ## Runs -/

variable {s t : Session}

theorem Mounted.ok (h : Mounted bs s) : s.Ok bs where
  eight := by rw [h.table, List.length_replicate]
  clean := h.clean
  accounted := by
    have hfree : ∀ t ∈ s.vol.resv, t.inode = 0 := by
      intro t ht
      rw [h.table] at ht
      rw [List.eq_of_mem_replicate ht]
    refine ⟨fun a b s t hs _ _ hne => ?_, h.zero, h.small, fun i _ hlive => ?_⟩
    · exact absurd (hfree s (List.mem_iff_getElem?.mpr ⟨a, hs⟩)) hne
    · refine ⟨fun l => h.kept i l hlive, fun t ht hti => ?_, fun _ l => h.past i l hlive⟩
      have hzero : i = 0 := hti.symm.trans (hfree t ht)
      subst hzero
      exact absurd h.zero hlive

theorem Session.Ok.step {c : Call} (hs : s.Ok bs) (hmeets : Meets bs s c) : (exec bs s c).Ok bs := by
  cases c with
  | write env buf ino offset count => exact write_ok hs hmeets
  | truncate env ino newSize => exact truncate_ok hs hmeets
  | preallocate env ino offset length => exact preallocate_ok hs hmeets
  | trim env ino => exact trim_ok hs hmeets
  | unlink env ino => exact unlink_ok hs hmeets
  | drain begin trims fate => exact drain_ok hs hmeets

theorem run_ok (hstart : Mounted bs s) (hrun : Run (step bs) (Meets bs) s t) : t.Ok bs := by
  refine hrun.invariant (fun s c t hmeets htaken hs => ?_) hstart.ok
  obtain rfl := Option.some.inj htaken
  exact hs.step hmeets

theorem Session.Ok.bounded (hs : s.Ok bs) : Bounded bs s := by
  refine ⟨hs.eight, fun i l hlive hpast hasked => ⟨?_, ?_⟩⟩
  · rintro rfl
    exact hlive hs.accounted.zero
  · by_contra hno
    have hall := (hs.accounted.each i trivial hlive).settled (fun t ht hti => hno ⟨t, ht, hti⟩) l hpast
    rw [hasked] at hall
    cases hall

/-- A drain that reports no error has given everything back, whatever became of it. -/
theorem Session.Ok.returned (hs : s.Ok bs) {begin : Option Errno} {trims : ℕ → Trim}
    {fate : Fate Errno} (hok : (resvDrain bs s.vol begin trims fate).1 = none) :
    Returned bs s (resvDrain bs s.vol begin trims fate).2 := by
  simp only [resvDrain] at hok ⊢
  cases begin with
  | some e => cases hok
  | none =>
      dsimp only at hok ⊢
      have hreleased := Batch.finish_none hok
      obtain ⟨haccounted, hfree⟩ := releaseAll_accounted hs.accounted hreleased
      have hcur := (resvReleaseAll bs s.vol trims).2.batch.finish_ok (Prod.ext hok rfl)
      refine ⟨hfree, fun i l hlive hpast => ?_⟩
      simp only [Vol.file, Vol.finish, hcur] at hlive hpast
      refine (haccounted.each i trivial hlive).settled (fun t ht hti => ?_) l hpast
      have hzero : i = 0 := hti.symm.trans (hfree t ht)
      subst hzero
      exact hlive haccounted.zero

theorem txnDrain_cur {v : Vol} {last : Fate Errno} (h : (txnDrain v last).1 = none) :
    (txnDrain v last).2.batch.cur = v.batch.cur ∧ (txnDrain v last).2.resv = v.resv := by
  simp only [txnDrain] at h ⊢
  split
  · exact ⟨rfl, rfl⟩
  · next hops =>
      rw [if_neg hops] at h
      cases hcommit : last.commit with
      | some e => rw [hcommit] at h; cases h
      | none => exact ⟨rfl, rfl⟩

theorem Session.Ok.unmounted (hs : s.Ok bs) {begin : Option Errno} {trims : ℕ → Trim}
    {fate last : Fate Errno} {rest : Option Errno}
    (hok : (unmount bs s.vol begin trims fate last rest).1 = none) :
    Returned bs s (unmount bs s.vol begin trims fate last rest).2 := by
  simp only [unmount] at hok ⊢
  have hdrained : (resvDrain bs s.vol begin trims fate).1 = none := by
    cases hr : (resvDrain bs s.vol begin trims fate).1 with
    | none => rfl
    | some e => rw [hr] at hok; cases hok
  have hlast : (txnDrain (resvDrain bs s.vol begin trims fate).2 last).1 = none := by
    rw [hdrained] at hok
    cases hr : (txnDrain (resvDrain bs s.vol begin trims fate).2 last).1 with
    | none => rfl
    | some e => rw [hr] at hok; cases hok
  obtain ⟨hfree, hpast⟩ := hs.returned hdrained
  obtain ⟨hcur, hresv⟩ := txnDrain_cur hlast
  refine ⟨by rw [hresv]; exact hfree, fun i l => ?_⟩
  simp only [Vol.file, hcur]
  exact hpast i l

/-- An empty file of a volume, nothing asked for. -/
def emptySession : Session := ⟨oneFile emptyFile [], fun _ _ => false⟩

/-- Giving back without a failure. -/
def cleanTrim : Trim := ⟨none, none, none⟩

/-- A long write to the start of the file: a block is reserved ahead before the allocator fails, the
    command for its data fares like `data`, and nothing else is written. -/
def longWrite (data : ByteDevice.Landing Errno) : Call :=
  .write ⟨none, none, ⟨some 0, 65537, fun _ => cleanTrim, [⟨none, 0, 10⟩], cleanTrim⟩,
    ⟨[{ smoothTurn 0 with data := data }], .lands, none, 0⟩, ⟨false, none, none⟩⟩
    (fun _ => 0xAA) 12 0 65536

/-- The file is truncated to the size it has. -/
def idleTruncate : Call :=
  .truncate ⟨none, none, false, [], ⟨none, none⟩, 0, ⟨false, none, none⟩⟩ 12 0

/-- The third block of the file is asked for. -/
def farPreallocate : Call :=
  .preallocate ⟨none, none, [⟨none, 0, 20⟩], ⟨false, none, none⟩⟩ 12 2048 1024

/-- Everything is given back. -/
def smoothDrain : Call := .drain none (fun _ => cleanTrim) ⟨false, none, none⟩

theorem emptySession_mounted : Mounted kib emptySession where
  table := rfl
  clean _ h := by cases h
  zero := rfl
  small i := by
    have hsize : (emptySession.file i).size = 0 := by
      simp only [emptySession, Session.file, Vol.file, oneFile]
      split
      · rfl
      · rfl
    rw [hsize]
    decide
  kept _ _ _ h := by cases h
  past i l _ h := by
    have hblocks : (emptySession.file i).blocks = [] := by
      simp only [emptySession, Session.file, Vol.file, oneFile]
      split
      · rfl
      · rfl
    exact absurd (by simp [File.map, hblocks]) h.2

/-- The command for the data of a block fails, and nothing of it lands. -/
def failing : ByteDevice.Landing Errno := .fails Errno.EIO fun _ => false

end Files

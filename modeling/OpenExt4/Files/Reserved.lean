import OpenExt4.Files.PastEnd

set_option autoImplicit false

/-! # What the table of reservations accounts for

A file with a slot holds blocks past its end without a hole, and none that were asked for; a file
without one holds only what was asked for. The steps on the table keep that. -/

namespace Files

open Batching

variable {bs : BlockSize}

/-! ## One file -/

/-- A block past the end of a file. -/
def File.past (bs : BlockSize) (f : File) (l : ℕ) : Prop := blocksFor bs f.size ≤ l ∧ f.has l

/-- A file with a slot: no block past its end was asked for, and they go on from the end without a
    hole, as far as the slot says or further. -/
structure Held (bs : BlockSize) (f : File) (asked : ℕ → Bool) (endLblk : ℕ) : Prop where
  extents : f.extents = true
  unasked : ∀ l, blocksFor bs f.size ≤ l → asked l = false
  solid : ∀ l l', f.has l → blocksFor bs f.size ≤ l' → l' ≤ l → f.has l'
  reach : ∀ l, blocksFor bs f.size ≤ l → l < endLblk → f.has l

/-- What was asked for is there, and what is past the end was asked for or has a slot. -/
structure Obeys (bs : BlockSize) (table : List Slot) (i : ℕ) (f : File) (asked : ℕ → Bool) :
    Prop where
  kept : ∀ l, asked l = true → f.has l
  held : ∀ s ∈ table, s.inode = i → Held bs f asked s.endLblk
  settled : (∀ s ∈ table, s.inode ≠ i) → ∀ l, f.past bs l → asked l = true

section OneFile

variable {table table' : List Slot} {i : ℕ} {f f' : File} {asked : ℕ → Bool}

/-- Only the slots of the inode matter. -/
theorem Obeys.slots (h : Obeys bs table i f asked)
    (hiff : ∀ s : Slot, s.inode = i → (s ∈ table' ↔ s ∈ table)) : Obeys bs table' i f asked where
  kept := h.kept
  held s hs hi := h.held s ((hiff s hi).mp hs) hi
  settled hno := h.settled fun s hs hi => hno s ((hiff s hi).mpr hs) hi

/-- Only the blocks, the size and the extents matter. -/
theorem Obeys.same (h : Obeys bs table i f asked) (hsize : f'.size = f.size)
    (hext : f'.extents = f.extents) (hhas : ∀ l, f'.has l ↔ f.has l) :
    Obeys bs table i f' asked where
  kept l hl := (hhas l).mpr (h.kept l hl)
  held s hs hi := by
    have hheld := h.held s hs hi
    refine ⟨hext.trans hheld.extents, ?_, ?_, ?_⟩
    · rw [hsize]
      exact hheld.unasked
    · intro l l' hl
      rw [hsize, hhas]
      exact hheld.solid l l' ((hhas l).mp hl)
    · intro l
      rw [hsize, hhas]
      exact hheld.reach l
  settled hno l hl := by
    refine h.settled hno l ⟨?_, (hhas l).mp hl.2⟩
    rw [← hsize]
    exact hl.1

/-- Growing over the blocks it takes, a file leaves fewer past its end. -/
theorem Obeys.grows {d d' : Disk} (h : Obeys bs table i d.file asked)
    (hsize : d.file.size ≤ d'.file.size)
    (hgains : Gains (fun l => l < blocksFor bs d'.file.size) d d') :
    Obeys bs table i d'.file asked := by
  have hle := blocksFor_mono bs hsize
  have hold : ∀ l, blocksFor bs d'.file.size ≤ l → d'.file.has l → d.file.has l :=
    fun l hl hhas => (hgains.fresh l hhas).resolve_right (Nat.not_lt.mpr hl)
  refine ⟨fun l hl => hgains.keeps l (h.kept l hl), fun s hs hi => ?_, fun hno l hl => ?_⟩
  · have hheld := h.held s hs hi
    refine ⟨?_, fun l hl => hheld.unasked l (hle.trans hl), fun l l' hl hend hle' => ?_,
      fun l hl hlt => hgains.keeps l (hheld.reach l (hle.trans hl) hlt)⟩
    · rw [hgains.inode]
      exact hheld.extents
    · exact hgains.keeps l' (hheld.solid l l' (hold l (hend.trans hle') hl) (hle.trans hend) hle')
  · exact h.settled hno l ⟨hle.trans hl.1, hold l hl.1 hl.2⟩

end OneFile

/-! ## All files -/

/-- No inode has two slots. -/
def Apart (table : List Slot) : Prop :=
  ∀ (a b : ℕ) (s t : Slot), table[a]? = some s → table[b]? = some t → s.inode = t.inode →
    s.inode ≠ 0 → a = b

/-- The table accounts for the files that `P` holds of, as far as they have a name. There is no inode
    0, and the blocks of a file have numbers of 32 bits. -/
structure Accounted (bs : BlockSize) (P : ℕ → Prop) (files : ℕ → File) (table : List Slot)
    (asked : ℕ → ℕ → Bool) : Prop where
  apart : Apart table
  zero : (files 0).links = 0
  small : ∀ i, blocksFor bs (files i).size < 2 ^ 32
  each : ∀ i, P i → (files i).links ≠ 0 → Obeys bs table i (files i) (asked i)

section AllFiles

variable {P : ℕ → Prop} {files : ℕ → File} {table : List Slot} {asked asked' : ℕ → ℕ → Bool}

theorem Accounted.mono {Q : ℕ → Prop} (h : Accounted bs P files table asked)
    (hPQ : ∀ i, i ≠ 0 → Q i → P i) : Accounted bs Q files table asked where
  apart := h.apart
  zero := h.zero
  small := h.small
  each i hi hlinks := by
    refine h.each i (hPQ i ?_ hi) hlinks
    rintro rfl
    exact hlinks h.zero

/-- The inode that a call works on may change in any way for the others. -/
theorem Accounted.put {ino : ℕ} {f : File} (h : Accounted bs (· ≠ ino) files table asked)
    (hlinks : (files ino).links = 0 → f.links = 0) (hsmall : blocksFor bs f.size < 2 ^ 32) :
    Accounted bs (· ≠ ino) (Function.update files ino f) table asked where
  apart := h.apart
  zero := by
    rw [Function.update_apply]
    split
    · next hi => exact hlinks (hi ▸ h.zero)
    · exact h.zero
  small i := by
    rw [Function.update_apply]
    split
    · exact hsmall
    · exact h.small i
  each i hi hlive := by
    rw [Function.update_of_ne hi] at hlive ⊢
    exact h.each i hi hlive

/-- The inode that a call works on has the table account for it again. -/
theorem Accounted.change {ino : ℕ} {f : File} (h : Accounted bs (· ≠ ino) files table asked)
    (hlinks : (files ino).links = 0 → f.links = 0) (hsmall : blocksFor bs f.size < 2 ^ 32)
    (hasked : ∀ i, i ≠ ino → asked' i = asked i)
    (hobeys : f.links ≠ 0 → Obeys bs table ino f (asked' ino)) :
    Accounted bs (fun _ => True) (Function.update files ino f) table asked' where
  apart := h.apart
  zero := (h.put hlinks hsmall).zero
  small := (h.put hlinks hsmall).small
  each i _ hlive := by
    by_cases hi : i = ino
    · subst hi
      rw [Function.update_self] at hlive ⊢
      exact hobeys hlive
    · rw [hasked i hi]
      exact (h.put hlinks hsmall).each i hi hlive

/-! ## Dropping a slot -/

/-- The table of `resv_forget`. -/
def forgotten (table : List Slot) (ino : ℕ) : List Slot :=
  table.map fun s => if s.inode = ino then ⟨0, s.endLblk⟩ else s

theorem mem_forgotten {ino i : ℕ} (hi : i ≠ 0) {s : Slot} (hs : s.inode = i) :
    s ∈ forgotten table ino ↔ i ≠ ino ∧ s ∈ table := by
  simp only [forgotten, List.mem_map]
  constructor
  · rintro ⟨t, ht, rfl⟩
    split at hs
    · exact absurd hs.symm hi
    · next hne =>
        rw [if_neg hne]
        exact ⟨fun h => hne (hs.trans h), ht⟩
  · rintro ⟨hne, hmem⟩
    exact ⟨s, hmem, if_neg fun h => hne (hs.symm.trans h)⟩

theorem Apart.forgotten (h : Apart table) (ino : ℕ) : Apart (forgotten table ino) := by
  intro a b s t hs ht hsame hne
  simp only [Files.forgotten, List.getElem?_map, Option.map_eq_some_iff] at hs ht
  obtain ⟨s', hs', rfl⟩ := hs
  obtain ⟨t', ht', rfl⟩ := ht
  split at hsame
  · next h => rw [if_pos h] at hne; exact absurd rfl hne
  · next hs'' =>
      rw [if_neg hs''] at hne
      split at hsame
      · exact absurd hsame hne
      · exact h a b s' t' hs' ht' hsame hne

/-- The table without the slot of an inode still accounts for the others. -/
theorem Accounted.forget (h : Accounted bs (fun _ => True) files table asked) (ino : ℕ) :
    Accounted bs (· ≠ ino) files (forgotten table ino) asked where
  apart := h.apart.forgotten ino
  zero := h.zero
  small := h.small
  each i hi hlive := by
    have hne : i ≠ 0 := by
      rintro rfl
      exact hlive h.zero
    refine (h.each i trivial hlive).slots fun s hs => ?_
    rw [mem_forgotten hne hs]
    exact ⟨fun hmem => hmem.2, fun hmem => ⟨hi, hmem⟩⟩

/-- A file whose blocks past the end were all asked for needs no slot. -/
theorem Obeys.forget {i : ℕ} {f : File} {asked : ℕ → Bool} (h : Obeys bs table i f asked)
    (hi : i ≠ 0) (hspare : ∀ l, f.past bs l → asked l = true) :
    Obeys bs (forgotten table i) i f asked where
  kept := h.kept
  held _ hs hsi := absurd rfl ((mem_forgotten hi hsi).mp hs).1
  settled _ := hspare

/-! ## Taking a slot -/

/-- A slot of an inode in the place of another: the table accounts for all files but the one whose
    slot is gone. -/
theorem Accounted.set {ino e k : ℕ} {old : Slot} (h : Accounted bs (· ≠ ino) files table asked)
    (hold : table[k]? = some old)
    (honly : ∀ a s, table[a]? = some s → s.inode = ino → ino ≠ 0 → a = k)
    (hheld : (files ino).links ≠ 0 →
      (∀ l, asked ino l = true → (files ino).has l) ∧ Held bs (files ino) (asked ino) e) :
    Accounted bs (fun i => i = ino ∨ i ≠ old.inode) files (table.set k ⟨ino, e⟩) asked := by
  have hk : k < table.length := by
    by_contra hge
    rw [List.getElem?_eq_none (Nat.le_of_not_lt hge)] at hold
    cases hold
  have hset : ∀ (a : ℕ) (s : Slot), (table.set k ⟨ino, e⟩)[a]? = some s →
      a = k ∧ s = ⟨ino, e⟩ ∨ a ≠ k ∧ table[a]? = some s := by
    intro a s hs
    rw [List.getElem?_set] at hs
    split at hs
    · next hak => exact .inl ⟨hak.symm, by simpa [hk, hak.symm] using hs.symm⟩
    · next hak => exact .inr ⟨fun hka => hak hka.symm, hs⟩
  have hmem : ∀ s ∈ table.set k ⟨ino, e⟩, s = ⟨ino, e⟩ ∨ ∃ a, a ≠ k ∧ table[a]? = some s := by
    intro s hs
    obtain ⟨a, ha⟩ := List.mem_iff_getElem?.mp hs
    rcases hset a s ha with ⟨-, hs⟩ | hs
    · exact .inl hs
    · exact .inr ⟨a, hs⟩
  have hself : (⟨ino, e⟩ : Slot) ∈ table.set k ⟨ino, e⟩ := List.mem_set hk _
  refine ⟨fun a b s t hs ht hsame hne => ?_, h.zero, h.small, fun i hi hlive => ?_⟩
  · rcases hset a s hs with ⟨hak, rfl⟩ | ⟨hak, hs⟩
    · rcases hset b t ht with ⟨hbk, -⟩ | ⟨-, ht⟩
      · exact hak.trans hbk.symm
      · exact hak.trans (honly b t ht hsame.symm hne).symm
    · rcases hset b t ht with ⟨hbk, rfl⟩ | ⟨-, ht⟩
      · exact (honly a s hs hsame fun hz => hne (hsame.trans hz)).trans hbk.symm
      · exact h.apart a b s t hs ht hsame hne
  · have hne : i ≠ 0 := by
      rintro rfl
      exact hlive h.zero
    by_cases hino : i = ino
    · subst hino
      obtain ⟨hkept, hheld⟩ := hheld hlive
      refine ⟨hkept, fun s hs hsi => ?_, fun hno => absurd rfl (hno _ hself)⟩
      rcases hmem s hs with rfl | ⟨a, hak, hs⟩
      · exact hheld
      · exact absurd (honly a s hs hsi hne) hak
    · refine (h.each i hino hlive).slots fun s hs => ⟨fun hin => ?_, fun hin => ?_⟩
      · rcases hmem s hin with rfl | ⟨a, -, hs⟩
        · exact absurd hs.symm hino
        · exact List.mem_iff_getElem?.mpr ⟨a, hs⟩
      · obtain ⟨a, ha⟩ := List.mem_iff_getElem?.mp hin
        have hak : a ≠ k := by
          rintro rfl
          rw [hold, Option.some.injEq] at ha
          exact (hi.resolve_left hino) (ha ▸ hs).symm
        exact List.mem_iff_getElem?.mpr
          ⟨a, by rw [List.getElem?_set, if_neg fun hka => hak hka.symm, ha]⟩

end AllFiles

theorem setFirst_set (p : Slot → Bool) (t : Slot) {table : List Slot} (h : table.any p = true) :
    ∃ (k : ℕ) (s : Slot), table[k]? = some s ∧ p s = true ∧ setFirst p t table = table.set k t := by
  induction table with
  | nil => simp at h
  | cons s rest ih =>
      by_cases hp : p s = true
      · exact ⟨0, s, rfl, hp, by simp [setFirst, hp]⟩
      · have hrest : rest.any p = true := by simpa [hp] using h
        obtain ⟨k, s', hk, hs', hset⟩ := ih hrest
        exact ⟨k + 1, s', hk, hs', by simp [setFirst, hp, hset]⟩

/-! ## Giving back -/

/-- Only the blocks and the times of files change, and nothing is committed. -/
structure Framed (v v' : Vol) : Prop where
  files : ∀ i, v'.batch.cur.files i = { v.batch.cur.files i with
    mtime := (v'.batch.cur.files i).mtime, ctime := (v'.batch.cur.files i).ctime,
    blocks := (v'.batch.cur.files i).blocks }
  batch : v'.batch = v.batch.set v'.batch.cur

theorem Framed.refl (v : Vol) : Framed v v := ⟨fun _ => rfl, rfl⟩

theorem Framed.trans {v v' v'' : Vol} (h : Framed v v') (h' : Framed v' v'') : Framed v v'' where
  files i := by rw [h'.files i, h.files i]
  batch := by rw [h'.batch, h.batch]; rfl

theorem Framed.size {v v' : Vol} (h : Framed v v') (i : ℕ) :
    (v'.batch.cur.files i).size = (v.batch.cur.files i).size := by rw [h.files i]

theorem Framed.links {v v' : Vol} (h : Framed v v') (i : ℕ) :
    (v'.batch.cur.files i).links = (v.batch.cur.files i).links := by rw [h.files i]

theorem Framed.put (v : Vol) (ino : ℕ) {d : Disk}
    (hd : d.file = { (v.file ino).file with
      mtime := d.file.mtime, ctime := d.file.ctime, blocks := d.file.blocks }) :
    Framed v (v.put ino d) where
  files i := by
    by_cases hi : i = ino
    · subst hi
      rw [put_files_self]
      exact hd
    · rw [put_files_other v d hi]
  batch := rfl

/-- No part of giving back blocks fails. -/
def Trim.Clean (o : Trim) : Prop :=
  o.get = none ∧ o.removal.find = none ∧ o.removal.stops = none

theorem Trim.Clean.trims {o : Trim} (h : o.Clean) (v : Vol) (ino : ℕ) :
    (trimAllocToSize bs v o ino).1 = none := by
  simp only [trimAllocToSize, h.1]
  split
  · rfl
  · split
    · rfl
    · simp only [removeSpace, h.2.1, h.2.2]
      split
      · rfl
      · rfl

/-- What giving back does: the file has fewer blocks, and nothing else happens. -/
structure Trimmed (v : Vol) (ino : ℕ) (v' : Vol) : Prop where
  files : v'.batch.cur.files =
    Function.update v.batch.cur.files ino (v'.batch.cur.files ino)
  framed : Framed v v'
  fewer : ∀ l, (v'.batch.cur.files ino).has l → (v.batch.cur.files ino).has l
  resv : v'.resv = v.resv

theorem trim_trimmed (bs : BlockSize) (v : Vol) (o : Trim) (ino : ℕ) :
    Trimmed v ino (trimAllocToSize bs v o ino).2 := by
  have hrefl : Trimmed v ino v :=
    ⟨(Function.update_eq_self ino _).symm, Framed.refl v, fun _ h => h, rfl⟩
  simp only [trimAllocToSize]
  split
  · exact hrefl
  · split
    · exact hrefl
    · split
      · exact hrefl
      · rcases removeSpace_cases (v.file ino) o.removal
          (u32 (blocksFor bs (v.file ino).file.size)) with hsame | ⟨p, hremoved⟩
        · dsimp only
          rw [hsame, put_file_self]
          exact hrefl
        · dsimp only
          rw [hremoved]
          refine ⟨?_, Framed.put v ino rfl, fun l hl => ?_, rfl⟩
          · rw [put_files_self]
            rfl
          · rw [put_files_self, remove_has] at hl
            exact hl.1

/-- **Giving back** leaves nothing past the end of a file with a slot, and all that is before it. -/
theorem trim_settles {v : Vol} {o : Trim} {ino e : ℕ} {asked : ℕ → Bool}
    (hok : (trimAllocToSize bs v o ino).1 = none) (hlive : (v.file ino).file.links ≠ 0)
    (hsmall : blocksFor bs (v.file ino).file.size < 2 ^ 32)
    (h : Held bs (v.file ino).file asked e) (l : ℕ) :
    ((trimAllocToSize bs v o ino).2.batch.cur.files ino).has l ↔
      (v.file ino).file.has l ∧ l < blocksFor bs (v.file ino).file.size := by
  simp only [trimAllocToSize] at hok ⊢
  cases hget : o.get with
  | some e => rw [hget] at hok; cases hok
  | none =>
      rw [hget] at hok
      simp only [h.extents, hlive, false_and, Bool.true_eq_false, if_false, u32_of_lt hsmall,
        removeSpace] at hok ⊢
      cases hfind : o.removal.find with
      | some e => rw [hfind] at hok; cases hok
      | none =>
          rw [hfind] at hok
          dsimp only at hok ⊢
          by_cases hhole : (v.file ino).file.map (blocksFor bs (v.file ino).file.size) = none
          · rw [if_pos hhole, put_file_self]
            refine ⟨fun hl => ⟨hl, ?_⟩, fun hl => hl.1⟩
            by_contra hge
            exact h.solid l _ hl (Nat.le_refl _) (Nat.le_of_not_lt hge) hhole
          · rw [if_neg hhole] at hok ⊢
            cases hstops : o.removal.stops with
            | some e => rw [hstops] at hok; cases hok
            | none =>
                dsimp only
                rw [put_files_self, remove_has]
                simp

/-- Behind the trim of an inode whose slot is gone the table accounts for it. -/
theorem Accounted.trimmed {v : Vol} {o : Trim} {ino : ℕ} {table : List Slot}
    {asked : ℕ → ℕ → Bool} (h : Accounted bs (· ≠ ino) v.batch.cur.files table asked)
    (hok : (trimAllocToSize bs v o ino).1 = none) (hno : ino ≠ 0 → ∀ s ∈ table, s.inode ≠ ino)
    (hheld : (v.file ino).file.links ≠ 0 → (∀ l, asked ino l = true → (v.file ino).file.has l) ∧
      ∃ e, Held bs (v.file ino).file (asked ino) e) :
    Accounted bs (fun _ => True) (trimAllocToSize bs v o ino).2.batch.cur.files table asked := by
  have htrim := trim_trimmed bs v o ino
  rw [htrim.files]
  have hlinks := htrim.framed.links ino
  have hsize := htrim.framed.size ino
  refine h.change (fun hdead => hlinks.trans hdead) (hsize.symm ▸ h.small ino) (fun _ _ => rfl)
    fun hlive => ?_
  rw [hlinks] at hlive
  obtain ⟨hkept, e, hheld⟩ := hheld hlive
  have hhas := trim_settles hok hlive (h.small ino) hheld
  have hne : ino ≠ 0 := by
    rintro rfl
    exact hlive h.zero
  refine ⟨fun l hl => (hhas l).mpr ⟨hkept l hl, ?_⟩, fun s hs hsi => absurd hsi (hno hne s hs),
    fun _ l hl => ?_⟩
  · by_contra hge
    rw [hheld.unasked l (Nat.le_of_not_lt hge)] at hl
    cases hl
  · have hlt := ((hhas l).mp hl.2).2
    have hge := hl.1
    rw [hsize] at hge
    exact absurd hlt (Nat.not_lt.mpr hge)

/-- **A slot is taken** for an inode, and an evicted one is given back. -/
theorem resvSet_accounted (v : Vol) (evict : Trim) (ino e : ℕ) {asked : ℕ → ℕ → Bool}
    (h : Accounted bs (· ≠ ino) v.batch.cur.files v.resv asked) (height : v.resv.length = 8)
    (hheld : (v.batch.cur.files ino).links ≠ 0 →
      (∀ l, asked ino l = true → (v.batch.cur.files ino).has l) ∧
        Held bs (v.batch.cur.files ino) (asked ino) e)
    (hclean : evict.Clean) :
    (resvSet bs v evict ino e).1 = none ∧ (resvSet bs v evict ino e).2.resv.length = 8 ∧
      Framed v (resvSet bs v evict ino e).2 ∧
      Accounted bs (fun _ => True) (resvSet bs v evict ino e).2.batch.cur.files
        (resvSet bs v evict ino e).2.resv asked := by
  simp only [resvSet]
  split
  · next hany =>
      obtain ⟨k, old, hk, hold, hset⟩ := setFirst_set _ ⟨ino, e⟩ hany
      have hino : old.inode = ino := by simpa using hold
      rw [hset]
      refine ⟨rfl, by simp [height], ⟨fun _ => rfl, rfl⟩, ?_⟩
      refine (h.set hk (fun a s hs hsi hne => ?_) hheld).mono fun i _ _ => ?_
      · exact h.apart a k s old hs hk (hsi.trans hino.symm) (hsi ▸ hne)
      · rw [hino]
        exact em _
  · next hany =>
      simp only [Bool.not_eq_true, List.any_eq_false, beq_iff_eq] at hany
      have hnone : ∀ (k a : ℕ) (s : Slot), v.resv[a]? = some s → s.inode = ino → ino ≠ 0 → a = k :=
        fun k a s hs hsi _ => absurd hsi (hany s (List.mem_iff_getElem?.mpr ⟨a, hs⟩))
      split
      · next hfree =>
          obtain ⟨k, old, hk, hold, hset⟩ := setFirst_set _ ⟨ino, e⟩ hfree
          have hzero : old.inode = 0 := by simpa using hold
          rw [hset]
          refine ⟨rfl, by simp [height], ⟨fun _ => rfl, rfl⟩, ?_⟩
          exact (h.set hk (hnone k) hheld).mono fun i hi _ => .inr (hzero.symm ▸ hi)
      · -- the victim's slot is gone before it is given back
        generalize hslot : v.resvNext % EXT4B_RESERVE_SLOTS = k
        have hlt : k < v.resv.length := by
          rw [height, ← hslot]
          exact Nat.mod_lt _ (by decide)
        obtain ⟨old, hold⟩ : ∃ old, v.resv[k]? = some old := ⟨_, List.getElem?_eq_getElem hlt⟩
        have hvictim : old.inode ≠ ino := hany old (List.mem_iff_getElem?.mpr ⟨k, hold⟩)
        simp only [hold, Option.map_some, Option.getD_some]
        have hset := h.set hold (hnone k) hheld
        generalize hv : ({ v with resv := v.resv.set k ⟨ino, e⟩, resvNext := k + 1 } : Vol) = v'
        have hcur : v'.batch = v.batch := by rw [← hv]
        have hresv : v'.resv = v.resv.set k ⟨ino, e⟩ := by rw [← hv]
        have htrim := trim_trimmed bs v' evict old.inode
        have hframed := htrim.framed
        rw [← hcur, ← hresv] at hset
        refine ⟨hclean.trims v' _, by rw [htrim.resv, hresv]; simp [height], ⟨?_, ?_⟩, ?_⟩
        · rw [← hcur]
          exact hframed.files
        · rw [← hcur]
          exact hframed.batch
        · rw [htrim.resv]
          refine (hset.mono fun i _ hi => .inr hi).trimmed (hclean.trims v' _) (fun hne s hs => ?_)
            fun hlive => ?_
          · rw [hresv] at hs
            obtain ⟨a, ha⟩ := List.mem_iff_getElem?.mp hs
            rw [List.getElem?_set] at ha
            split at ha
            · next hak =>
                simp only [Option.some.injEq] at ha
                rw [← ha]
                exact fun hsame => hvictim hsame.symm
            · next hak =>
                intro hsame
                exact hak (h.apart k a old s hold ha hsame.symm hne)
          · have hobeys := h.each old.inode hvictim (hcur ▸ hlive)
            simp only [Vol.file, hcur]
            exact ⟨hobeys.kept, _, hobeys.held old (List.mem_iff_getElem?.mpr ⟨k, hold⟩) rfl⟩

/-! ## Giving everything back -/

theorem releaseSlots_clean (bs : BlockSize) {trims : ℕ → Trim} (h : ∀ k, (trims k).Clean) (i : ℕ)
    (slots : List Slot) (v : Vol) : (releaseSlots bs trims i slots v).1 = none := by
  induction slots generalizing i v with
  | nil => rfl
  | cons s rest ih =>
      simp only [releaseSlots]
      split
      · exact ih (i + 1) v
      · simp only [(h i).trims, if_true]
        exact ih (i + 1) _

theorem releaseSlots_framed (bs : BlockSize) (trims : ℕ → Trim) (i : ℕ) (slots : List Slot)
    (v : Vol) : Framed v (releaseSlots bs trims i slots v).2 ∧
      (releaseSlots bs trims i slots v).2.resv = v.resv := by
  induction slots generalizing i v with
  | nil => exact ⟨Framed.refl v, rfl⟩
  | cons s rest ih =>
      simp only [releaseSlots]
      split
      · exact ih (i + 1) v
      · have htrim := trim_trimmed bs v (trims i) s.inode
        obtain ⟨hframed, hresv⟩ := ih (i + 1) (trimAllocToSize bs v (trims i) s.inode).2
        exact ⟨htrim.framed.trans hframed, hresv.trans htrim.resv⟩

/-- The slots that are still to come account for what is past the ends. -/
theorem releaseSlots_accounted {trims : ℕ → Trim} {i : ℕ} {slots : List Slot} {v : Vol}
    {asked : ℕ → ℕ → Bool} (h : Accounted bs (fun _ => True) v.batch.cur.files slots asked)
    (hok : (releaseSlots bs trims i slots v).1 = none) :
    Accounted bs (fun _ => True) (releaseSlots bs trims i slots v).2.batch.cur.files [] asked := by
  induction slots generalizing i v with
  | nil => exact h
  | cons s rest ih =>
      have hrest : Apart rest := fun a b s' t hs' ht => fun hsame hne =>
        Nat.succ.inj (h.apart (a + 1) (b + 1) s' t hs' ht hsame hne)
      have hother : Accounted bs (· ≠ s.inode) v.batch.cur.files rest asked :=
        ⟨hrest, h.zero, h.small, fun j hj hlive => (h.each j trivial hlive).slots fun t ht =>
          ⟨fun hmem => List.mem_cons_of_mem _ hmem, fun hmem =>
            (List.mem_cons.mp hmem).resolve_left fun hts => hj (ht.symm.trans (by rw [hts]))⟩⟩
      simp only [releaseSlots] at hok ⊢
      split
      · next hzero =>
          rw [if_pos hzero] at hok
          exact ih (hother.mono fun j hj _ => hzero.symm ▸ hj) hok
      · next hne =>
          rw [if_neg hne] at hok
          have htrim : (trimAllocToSize bs v (trims i) s.inode).1 = none := by
            by_contra hsome
            simp only [hsome, if_false] at hok
          simp only [htrim, if_true] at hok
          refine ih (hother.trimmed htrim (fun _ t ht hts => ?_) fun hlive => ?_) hok
          · obtain ⟨a, ha⟩ := List.mem_iff_getElem?.mp ht
            exact absurd (h.apart 0 (a + 1) s t rfl ha hts.symm hne) (Nat.succ_ne_zero a).symm
          · have hobeys := h.each s.inode trivial hlive
            exact ⟨hobeys.kept, _, hobeys.held s List.mem_cons_self rfl⟩

/-- **Everything is given back**: no slot is left, and nothing past an end but what was asked for. -/
theorem releaseAll_accounted {trims : ℕ → Trim} {v : Vol} {asked : ℕ → ℕ → Bool}
    (h : Accounted bs (fun _ => True) v.batch.cur.files v.resv asked)
    (hok : (resvReleaseAll bs v trims).1 = none) :
    Accounted bs (fun _ => True) (resvReleaseAll bs v trims).2.batch.cur.files
        (resvReleaseAll bs v trims).2.resv asked ∧
      ∀ s ∈ (resvReleaseAll bs v trims).2.resv, s.inode = 0 := by
  have hnone := releaseSlots_accounted (v := { v with resv := v.resv.map fun s => ⟨0, s.endLblk⟩ })
    h hok
  have hresv := (releaseSlots_framed bs trims 0 v.resv
    { v with resv := v.resv.map fun s => ⟨0, s.endLblk⟩ }).2
  have hcleared : ∀ s ∈ (resvReleaseAll bs v trims).2.resv, s.inode = 0 := by
    intro s hs
    simp only [resvReleaseAll, hresv, List.mem_map] at hs
    obtain ⟨t, -, rfl⟩ := hs
    rfl
  refine ⟨⟨fun a b s t hs ht hsame hne => ?_, hnone.zero, hnone.small, fun i _ hlive => ?_⟩,
    hcleared⟩
  · exact absurd (hcleared s (List.mem_iff_getElem?.mpr ⟨a, hs⟩)) hne
  · have hne : i ≠ 0 := by
      rintro rfl
      exact hlive hnone.zero
    refine (hnone.each i trivial hlive).slots fun s hs => ⟨fun hmem => ?_, fun hmem => by simp at hmem⟩
    exact absurd (hs.symm.trans (hcleared s hmem)) hne

/-! ## Reserving ahead -/

/-- A write that allocates ahead: a long one that goes on from the end, of a file with extents. -/
def Reserves (bs : BlockSize) (f : File) (offset count : ℕ) : Prop :=
  EXT4B_RESERVE_TRIGGER * bs.val ≤ count ∧ offset ≤ f.size ∧ f.size < offset + count ∧
    f.extents = true

/-- Preallocating from where the blocks past the end stop leaves no hole. -/
theorem Held.preallocate {d : Disk} {asked : ℕ → Bool} {e count : ℕ} {os : List Blocks}
    (h : Held bs d.file asked e) (hfits : max e (blocksFor bs d.file.size) + count < 2 ^ 32) :
    let out := preallocate (max e (blocksFor bs d.file.size)) count os 0 0 d
    Held bs out.2.2.file asked (u32 (max e (blocksFor bs d.file.size) + out.2.1)) := by
  generalize hreach : max e (blocksFor bs d.file.size) = reach at hfits ⊢
  have hcovers := preallocate_covers (d := d) reach count (by omega) os
    (Nat.le_refl 0) (fun l hl hlt => absurd hlt (Nat.not_lt.mpr hl))
  generalize Files.preallocate reach count os 0 0 d = out at hcovers ⊢
  obtain ⟨m, -, hm, -, hcovered, hgains⟩ := hcovers.covered
  have hsize := hcovers.size
  have hbound := hcovers.bound
  have hbefore : ∀ l, blocksFor bs d.file.size ≤ l → l < reach → out.2.2.file.has l :=
    fun l hl hlt => hgains.keeps l (h.reach l hl (by omega))
  dsimp only
  rw [u32_of_lt (by omega)]
  refine ⟨?_, fun l hl => h.unasked l (hsize ▸ hl), fun l l' hl hend hle => ?_,
    fun l hend hlt => ?_⟩
  · rw [hgains.inode]
    exact h.extents
  · rw [hsize] at hend
    rcases hgains.fresh l hl with hold | hnew
    · exact hgains.keeps l' (h.solid l l' hold hend hle)
    · by_cases hlt : l' < reach
      · exact hbefore l' hend hlt
      · exact hcovered l' (by omega) (by omega)
  · rw [hsize] at hend
    by_cases hlt' : l < reach
    · exact hbefore l hend hlt'
    · exact hcovered l (by omega) (by omega)

theorem resvEnd_cases (v : Vol) (ino : ℕ) :
    (∃ s ∈ v.resv, s.inode = ino ∧ resvEnd v ino = s.endLblk) ∨
      (∀ s ∈ v.resv, s.inode ≠ ino) ∧ resvEnd v ino = 0 := by
  simp only [resvEnd]
  cases hfind : v.resv.find? (·.inode = ino) with
  | some s =>
      exact .inl ⟨s, List.mem_of_find?_eq_some hfind, by simpa using List.find?_some hfind, rfl⟩
  | none => exact .inr ⟨by simpa using hfind, rfl⟩

/-- Where a reservation goes on there is no block yet, and no hole before it. -/
theorem Obeys.reach {v : Vol} {ino have_ : ℕ} {probe : Option ℕ} {asked : ℕ → Bool}
    (h : Obeys bs v.resv ino (v.file ino).file asked) (hext : (v.file ino).file.extents = true)
    (hhave : blocksFor bs (v.file ino).file.size = have_)
    (hprobe : ¬ (resvEnd v ino = 0 ∧ (mapRange (v.file ino).file probe have_ 1).isSome = true))
    (hhole : mapRange (v.file ino).file probe have_ 1 = none →
      ∀ l, have_ ≤ l → asked l = false) :
    ∃ e, Held bs (v.file ino).file asked e ∧ resvReach v ino have_ = max e have_ := by
  subst hhave
  simp only [resvReach]
  rcases resvEnd_cases v ino with ⟨s, hmem, hino, hend⟩ | ⟨hno, hend⟩
  · refine ⟨s.endLblk, h.held s hmem hino, ?_⟩
    rw [hend]
    split
    · next hzero => rw [hzero, Nat.zero_max]
    · rfl
  · simp only [hend, true_and, Bool.not_eq_true, Option.isSome_eq_false_iff,
      Option.isNone_iff_eq_none] at hprobe
    have hunasked := hhole hprobe
    refine ⟨0, ⟨hext, hunasked, fun l l' hl hle hle' => ?_, fun l _ hlt => by omega⟩,
      by simp [hend]⟩
    have hasked := h.settled hno l ⟨hle.trans hle', hl⟩
    rw [hunasked l (hle.trans hle')] at hasked
    cases hasked

/-- **Reserving ahead** keeps the table accounting for all files. -/
theorem reserveAhead_accounted {v : Vol} {o : Reserve} {ino offset count : ℕ}
    {asked : ℕ → ℕ → Bool} (h : Accounted bs (fun _ => True) v.batch.cur.files v.resv asked)
    (height : v.resv.length = 8) (hrelease : ∀ k, (o.release k).Clean) (hevict : o.evict.Clean)
    (hfits : blocksFor bs (offset + count) + EXT4B_RESERVE_AHEAD < 2 ^ 32)
    (hhole : Reserves bs (v.file ino).file offset count →
      mapRange (v.file ino).file o.probe (blocksFor bs (v.file ino).file.size) 1 = none →
      ∀ l, blocksFor bs (v.file ino).file.size ≤ l → asked ino l = false) :
    (reserveAhead bs v o ino offset count).1 = none ∧
      (reserveAhead bs v o ino offset count).2.resv.length = 8 ∧
      Framed v (reserveAhead bs v o ino offset count).2 ∧
      Accounted bs (fun _ => True) (reserveAhead bs v o ino offset count).2.batch.cur.files
        (reserveAhead bs v o ino offset count).2.resv asked := by
  have hhave : u32 (blocksFor bs (v.file ino).file.size) = blocksFor bs (v.file ino).file.size :=
    u32_of_lt (h.small ino)
  have hsame : (none : Option Errno) = none ∧ v.resv.length = 8 ∧ Framed v v ∧
      Accounted bs (fun _ => True) v.batch.cur.files v.resv asked := ⟨rfl, height, Framed.refl v, h⟩
  simp only [reserveAhead]
  split
  · next hreserves =>
      split
      · exact hsame
      · next hprobe =>
          split
          · have hok := releaseSlots_clean bs hrelease 0 v.resv
              { v with resv := v.resv.map fun s => ⟨0, s.endLblk⟩ }
            obtain ⟨hframed, hresv⟩ := releaseSlots_framed bs o.release 0 v.resv
              { v with resv := v.resv.map fun s => ⟨0, s.endLblk⟩ }
            refine ⟨hok, ?_, ⟨hframed.files, hframed.batch⟩, (releaseAll_accounted h hok).1⟩
            simp only [resvReleaseAll, hresv, List.length_map, height]
          · split
            · next hlt =>
                rw [hhave] at hprobe hlt ⊢
                have hthrough : u32 (blocksFor bs (offset + count)) = blocksFor bs (offset + count) :=
                  u32_of_lt (by omega)
                rw [hthrough] at hlt ⊢
                generalize hreach : resvReach v ino (blocksFor bs (v.file ino).file.size) = reach
                  at hlt ⊢
                have hcovers := preallocate_covers (d := v.file ino) reach
                  (blocksFor bs (offset + count) - reach + EXT4B_RESERVE_AHEAD) (by omega)
                  o.blocks (Nat.le_refl 0) (fun l hl hlt => absurd hlt (Nat.not_lt.mpr hl))
                have hheld : (v.file ino).file.links ≠ 0 → Held bs
                    (preallocate reach (blocksFor bs (offset + count) - reach + EXT4B_RESERVE_AHEAD)
                      o.blocks 0 0 (v.file ino)).2.2.file (asked ino)
                    (u32 (reach + (preallocate reach (blocksFor bs (offset + count) - reach +
                      EXT4B_RESERVE_AHEAD) o.blocks 0 0 (v.file ino)).2.1)) := by
                  intro hlive
                  obtain ⟨e, he, hmax⟩ := (h.each ino trivial hlive).reach hreserves.2.2.2 rfl hprobe
                    (hhole hreserves)
                  rw [hreach] at hmax
                  subst hmax
                  exact he.preallocate (by omega)
                generalize preallocate reach _ o.blocks 0 0 (v.file ino) = out at hcovers hheld ⊢
                have hgains := hcovers.within
                have hframed : Framed v (v.put ino out.2.2) := by
                  refine Framed.put v ino ?_
                  rw [hgains.inode, hcovers.size]
                have hsize := hcovers.size
                have hsmall : blocksFor bs out.2.2.file.size < 2 ^ 32 := hsize ▸ h.small ino
                have hlinks : out.2.2.file.links = (v.file ino).file.links := by rw [hgains.inode]
                have hext : out.2.2.file.extents = (v.file ino).file.extents := by rw [hgains.inode]
                split
                · have hput := (h.mono (Q := (· ≠ ino)) fun _ _ _ => trivial).put
                    (f := out.2.2.file) (fun hdead => hlinks.trans hdead) hsmall
                  have hslot : out.2.2.file.links ≠ 0 →
                      (∀ l, asked ino l = true → out.2.2.file.has l) ∧
                        Held bs out.2.2.file (asked ino) (u32 (reach + out.2.1)) := by
                    intro hlive
                    rw [hlinks] at hlive
                    exact ⟨fun l hl => hgains.keeps l ((h.each ino trivial hlive).kept l hl),
                      hheld hlive⟩
                  rw [← put_files_self v ino out.2.2] at hslot
                  obtain ⟨hok, height', hframed', haccounted⟩ := resvSet_accounted
                    (v.put ino out.2.2) o.evict ino (u32 (reach + out.2.1)) hput height hslot hevict
                  exact ⟨hok, height', hframed.trans hframed', haccounted⟩
                · next hzero =>
                    have hnone := hcovers.none (Nat.eq_zero_of_not_pos hzero)
                    refine ⟨rfl, height, hframed, ?_⟩
                    refine (h.mono fun _ _ _ => trivial).change (fun hdead => hlinks.trans hdead) hsmall
                      (fun _ _ => rfl) fun hlive => ?_
                    exact (h.each ino trivial (hlinks ▸ hlive)).same hsize hext fun l =>
                      ⟨fun hl => (hnone.fresh l hl).resolve_right id, hnone.keeps l⟩
            · exact hsame
  · exact hsame

end Files

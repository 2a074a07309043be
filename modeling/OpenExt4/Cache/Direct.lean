import OpenExt4.Cache.Runs

set_option autoImplicit false

/-! # The cache and writes past it

File data goes straight to the device. A block that was metadata before is freed first, and its
buffer invalidated; what comes of the data then rests on the invalidation, which looks for the
buffer of the first block of its range and does nothing if there is none. -/

namespace Bcache

open Cache Transitions

variable {α : Type}

/-! ## Invalidating a range -/

/-- No buffer of the range is up to date or dirty. -/
def Cleared (c : Cache α) (first cnt : ℕ) : Prop :=
  ∀ x ∈ c.lbaRoot, InRange first cnt x → (c.buf x).uptodate = false ∧ (c.buf x).dirty = false

instance (c : Cache α) (first cnt : ℕ) : Decidable (Cleared c first cnt) := List.decidableBAll ..

/-- There is a buffer of the first block, or nothing to invalidate. -/
def Covered (c : Cache α) (first cnt : ℕ) : Prop := first ∈ c.lbaRoot ∨ Cleared c first cnt

instance (c : Cache α) (first cnt : ℕ) : Decidable (Covered c first cnt) :=
  inferInstanceAs (Decidable (_ ∨ _))

/-- Outside of the range every buffer, and its place, is as it was. -/
def OthersSame (first cnt : ℕ) (c c' : Cache α) : Prop :=
  c'.lbaRoot = c.lbaRoot ∧ c'.lruRoot = c.lruRoot ∧ ∀ y, ¬ InRange first cnt y →
    c'.buf y = c.buf y ∧ (y ∈ c'.dirtyList ↔ y ∈ c.dirtyList)

/-- **`ext4_bcache_invalidate_lba`** does what it is for if and only if there is a buffer of its
    first block, or none to invalidate. -/
theorem invalidateLba_iff {c : Cache α} (h : Wf c) {first cnt : ℕ} (hcnt : 1 ≤ cnt)
    (hend : first + cnt ≤ 2 ^ 64) :
    Cleared (c.invalidateLba first cnt) first cnt ∧
      OthersSame first cnt c (c.invalidateLba first cnt) ↔ Covered c first cnt := by
  have hinv := h.invalidateLba_invalidated first cnt
  constructor
  · rintro ⟨hcleared, -⟩
    by_cases hfirst : first ∈ c.lbaRoot
    · exact .inl hfirst
    · refine .inr fun x hx hrange => ?_
      have hout : x ∉ c.walkFrom first cnt := fun hin =>
        hfirst ((h.mem_walkFrom hcnt hend).mp hin).1
      rw [← hinv.buf x hout]
      exact hcleared x (hinv.lbaRoot ▸ hx) hrange
  · intro hcovered
    refine ⟨fun x hx hrange => ?_, hinv.lbaRoot, hinv.lruRoot, fun y hy => ?_⟩
    · rw [hinv.lbaRoot] at hx
      by_cases hin : x ∈ c.walkFrom first cnt
      · exact hinv.cleared x hin
      · rw [hinv.buf x hin]
        rcases hcovered with hfirst | hnone
        · exact absurd ((h.mem_walkFrom hcnt hend).mpr ⟨hfirst, hx, hrange⟩) hin
        · exact hnone x hx hrange
    · have hout : y ∉ c.walkFrom first cnt := fun hin =>
        hy ((h.mem_walkFrom hcnt hend).mp hin).2.2
      exact ⟨hinv.buf y hout, hinv.dirtyList y hout⟩

/-! ## Runs -/

/-- The cache, the data last written to a block past it, and the blocks that were got through it
    since they were last freed. -/
structure DirectState (α : Type) where
  cache : Cache α
  direct : ℕ → Option α
  touched : ℕ → Bool

/-- A call of the cache, or a write past it, with what it leaves in its blocks if it fails. A call
    of `ext4_bcache_invalidate_lba` frees the blocks of its range. -/
inductive Act (α : Type) where
  | call (e : Call α)
  | flushRun (first cnt : ℕ) (d : ℕ → α) (left : Option (ℕ → α))
  | writePart (x : ℕ) (f : α → α) (left : Option α)
  | setDirect (first cnt : ℕ) (d : ℕ → α) (left : Option (ℕ → α))
  | setDirectInvalidate (first cnt : ℕ) (d : ℕ → α) (left : Option (ℕ → α)) (always : Bool)

/-- What it does to the cache and the device. -/
def perform (c : Cache α) : Act α → Cache α
  | .call e => (exec c e).2
  | .flushRun first cnt d left => (c.bridgeFlushRun first cnt d left).2
  | .writePart x f left => (c.writePart x f left).2
  | .setDirect first cnt d left => (c.setDirect first cnt d left).2
  | .setDirectInvalidate first cnt d left always =>
      (c.setDirectInvalidate first cnt d left always).2

/-- The data of a range that was written, or not quite. -/
def written (direct : ℕ → Option α) (first cnt : ℕ) (d : ℕ → α) (left : Option (ℕ → α)) :
    ℕ → Option α := fun x =>
  if InRange first cnt x then (if left.isNone then some (d x) else none) else direct x

/-- What is known of the data afterwards. A block that is changed through the cache, that is freed,
    or that a failed write may have torn, has no data of a direct write any more. -/
def known (s : DirectState α) : Act α → ℕ → Option α
  | .call (.modify x _) => Function.update s.direct x none
  | .call (.put x w) => if Loses s.cache x w then Function.update s.direct x none else s.direct
  | .call (.flushLba x w w') =>
      if LosesTwice s.cache x w w' then Function.update s.direct x none else s.direct
  | .call (.invalidateLba first cnt) => fun x =>
      if InRange first cnt x then none else s.direct x
  | .call _ => s.direct
  | .flushRun first cnt d left | .setDirect first cnt d left
  | .setDirectInvalidate first cnt d left _ => written s.direct first cnt d left
  | .writePart x f left =>
      Function.update s.direct x (if left.isNone then (s.direct x).map f else none)

/-- Which blocks were got through the cache afterwards. -/
def touches (s : DirectState α) : Act α → ℕ → Bool
  | .call (.get x _ _ _) | .call (.getNoread x _ _) | .call (.modify x _) =>
      Function.update s.touched x true
  | .call (.getSb _ _ _) => Function.update s.touched s.cache.sbLba true
  | .call (.invalidateLba first cnt) => fun x => !decide (InRange first cnt x) && s.touched x
  | _ => s.touched

/-- A range is one of 64-bit block numbers. Who writes past the cache and leaves the buffers alone
    does so to blocks that were not got through it since they were last freed. -/
def Allowed (s : DirectState α) : Act α → Prop
  | .call e => Ready s.cache e
  | .setDirect first cnt _ _ => ∀ x ∈ List.range' first cnt, s.touched x = false
  | .setDirectInvalidate first cnt _ _ _ => 1 ≤ cnt ∧ first + cnt ≤ 2 ^ 64
  | _ => True

instance (s : DirectState α) : (a : Act α) → Decidable (Allowed s a)
  | .call e => inferInstanceAs (Decidable (Ready s.cache e))
  | .setDirect .. => List.decidableBAll ..
  | .setDirectInvalidate .. => inferInstanceAs (Decidable (_ ∧ _))
  | .flushRun .. | .writePart .. => inferInstanceAs (Decidable True)

/-- One act. -/
def act (s : DirectState α) (a : Act α) : Option (DirectState α) :=
  if Allowed s a then some ⟨perform s.cache a, known s a, touches s a⟩ else none

/-- The acts whose invalidation, if they make one, finds what it has to. -/
def Finds (s : DirectState α) : Act α → Prop
  | .call (.invalidateLba first cnt) => Covered s.cache first cnt
  | .call e => Fresh s.cache e
  | .setDirectInvalidate first cnt _ left always =>
      left.isNone ∨ always = true → Covered s.cache first cnt
  | _ => True

instance (s : DirectState α) : (a : Act α) → Decidable (Finds s a)
  | .call (.invalidateLba first cnt) => inferInstanceAs (Decidable (Covered s.cache first cnt))
  | .call (.get x _ _ _) | .call (.getNoread x _ _) | .call (.flushLba x _ _) =>
      inferInstanceAs (Decidable (s.cache.FreshId x))
  | .call (.getSb _ _ _) => inferInstanceAs (Decidable (s.cache.FreshId s.cache.sbLba))
  | .setDirectInvalidate .. => inferInstanceAs (Decidable (_ → _))
  | .call (.modify ..) | .call (.mark ..) | .call (.put ..) | .call (.shake _)
  | .call (.cacheFlush _) | .call (.writeBack ..) | .flushRun .. | .writePart .. | .setDirect .. =>
      inferInstanceAs (Decidable True)

/-- **Coherence with the data**: a buffer of a block with data has that data, the device has it too
    if the buffer is clean or there is none, and blocks nobody got have no valid buffer. -/
structure Coherent (s : DirectState α) : Prop where
  wf : Wf s.cache
  transparent : WriteBack.Transparent s.direct s.cache.line s.cache.device
  untouched : ∀ x, s.touched x = false → s.cache.line x = none

/-! ## One act -/

/-- Of a block a call alters nothing is known, and the others keep what they had. -/
theorem known_call (s : DirectState α) (e : Call α) (x : ℕ) :
    known s (.call e) x = none ∨ ¬ Alters s.cache x e ∧ known s (.call e) x = s.direct x := by
  cases e with
  | modify y d =>
      by_cases hx : x = y
      · exact .inl (by simp [known, hx])
      · exact .inr ⟨hx, by simp [known, hx]⟩
  | put y w =>
      by_cases hlost : x = y ∧ Loses s.cache y w
      · exact .inl (by simp [known, hlost.1, hlost.2])
      · refine .inr ⟨hlost, ?_⟩
        by_cases hx : x = y
        · simp [known, show ¬ Loses s.cache y w from fun h => hlost ⟨hx, h⟩]
        · by_cases h : Loses s.cache y w <;> simp [known, h, hx]
  | flushLba y w w' =>
      by_cases hlost : x = y ∧ LosesTwice s.cache y w w'
      · exact .inl (by simp [known, hlost.1, hlost.2])
      · refine .inr ⟨hlost, ?_⟩
        by_cases hx : x = y
        · simp [known, show ¬ LosesTwice s.cache y w w' from fun h => hlost ⟨hx, h⟩]
        · by_cases h : LosesTwice s.cache y w w' <;> simp [known, h, hx]
  | invalidateLba first cnt =>
      by_cases hx : InRange first cnt x
      · exact .inl (by simp [known, hx])
      · exact .inr ⟨hx, by simp [known, hx]⟩
  | get _ _ _ _ | getNoread _ _ _ | getSb _ _ _ | mark _ _ _ _ | shake _ | cacheFlush _
  | writeBack _ _ => exact .inr ⟨id, rfl⟩

theorem Finds.fresh {s : DirectState α} {e : Call α} (h : Finds s (.call e)) : Fresh s.cache e := by
  cases e with
  | invalidateLba first cnt => trivial
  | _ => exact h

/-- A call of the cache keeps the data that is known. -/
theorem Coherent.call_at {s : DirectState α} (h : Coherent s) {e : Call α}
    (hfinds : Finds s (.call e)) (hready : Ready s.cache e) (x : ℕ) :
    WriteBack.At (known s (.call e) x) ((exec s.cache e).2.line x) ((exec s.cache e).2.device x) := by
  rcases known_call s e x with hnone | ⟨halters, hsame⟩
  · rw [hnone]
    exact .unknown
  · rw [hsame]
    exact exec_kept h.wf hfinds.fresh hready halters _ (h.transparent x)

theorem Cleared.line {c : Cache α} {first cnt x : ℕ} (h : Cleared c first cnt)
    (hx : InRange first cnt x) : c.line x = none := by
  by_cases hmem : x ∈ c.lbaRoot
  · exact line_of_not_uptodate (h x hmem hx).1
  · exact line_of_not_mem hmem

/-- A block without a valid buffer is not dirty. -/
theorem clean_of_line {c : Cache α} (h : Wf c) {x : ℕ} (hmem : x ∈ c.lbaRoot)
    (hnone : c.line x = none) : (c.buf x).dirty ≠ true := by
  intro hdirty
  rw [h.line_of_dirty hmem hdirty] at hnone
  exact Option.some_ne_none _ hnone

/-- Nor does a call bring a block into the cache that it does not get. -/
theorem Coherent.call_lines {s : DirectState α} (h : Coherent s) {e : Call α}
    (hfinds : Finds s (.call e)) (hready : Ready s.cache e) {x : ℕ}
    (hx : touches s (.call e) x = false) : (exec s.cache e).2.line x = none := by
  have hold : touches s (.call e) x = s.touched x → s.cache.line x = none := fun hsame =>
    h.untouched x (hsame.symm.trans hx)
  have hother : ∀ y, touches s (.call e) = Function.update s.touched y true →
      x ≠ y ∧ s.cache.line x = none := by
    intro y hupdate
    have hxy : x ≠ y := by
      rintro rfl
      rw [hupdate, Function.update_self] at hx
      exact Bool.false_ne_true hx.symm
    exact ⟨hxy, hold (by rw [hupdate, Function.update_of_ne hxy])⟩
  cases e with
  | get y mem readOk w =>
      obtain ⟨hxy, hline⟩ := hother y rfl
      exact (Loads.get h.wf hfinds mem readOk w x).2 hxy hline
  | getNoread y mem w =>
      exact (Quiet.getNoread h.wf mem w x).lines (hother y rfl).2
  | getSb mem readOk w =>
      obtain ⟨hxy, hline⟩ := hother _ rfl
      exact (Loads.getSb h.wf hfinds mem readOk w x).2 hxy hline
  | modify y d =>
      obtain ⟨hxy, hline⟩ := hother y rfl
      exact (modify_line_of_ne hxy d).trans hline
  | mark y flush tmp endWrite =>
      have hquiet : Quiet s.cache (s.cache.mark y flush tmp endWrite) := .setBuf _ y rfl rfl rfl
      exact (hquiet x).lines (hold rfl)
  | put y w =>
      refine (QuietAt.free h.wf hready.1 hready.2 ?_).lines (hold rfl)
      rintro rfl hlost
      exact clean_of_line h.wf hready.1 (hold rfl) hlost.2.2.1
  | flushLba y w w' =>
      refine (QuietAt.flushLba h.wf hfinds ?_).lines (hold rfl)
      rintro rfl hlost
      exact clean_of_line h.wf hlost.1 (hold rfl) hlost.2.2.2.1
  | shake w => exact (Quiet.shake h.wf w x).lines (hold rfl)
  | invalidateLba first cnt =>
      by_cases hrange : InRange first cnt x
      · exact ((invalidateLba_iff h.wf hready.1 hready.2).mpr hfinds).1.line hrange
      · have hout : x ∉ s.cache.walkFrom first cnt := fun hin =>
          hrange ((h.wf.mem_walkFrom hready.1 hready.2).mp hin).2.2
        refine ((h.wf.invalidateLba_invalidated first cnt).quietAt hout).lines (hold ?_)
        simp [touches, hrange]
  | cacheFlush w => exact (Quiet.cacheFlush h.wf w x).lines (hold rfl)
  | writeBack on w => exact (Quiet.writeBack h.wf on w x).lines (hold rfl)

/-! ## Writes past the cache -/

theorem updateIfCached_buf (c : Cache α) (x y : ℕ) (f : α → α) :
    (c.updateIfCached x f).buf y =
        (if y = x ∧ y ∈ c.lbaRoot then { c.buf y with data := f (c.buf y).data } else c.buf y) ∧
      (c.updateIfCached x f).lbaRoot = c.lbaRoot ∧ (c.updateIfCached x f).device = c.device := by
  unfold Cache.updateIfCached
  by_cases hx : x ∈ c.lbaRoot
  · by_cases hy : y = x
    · subst hy
      simp [hx]
    · simp [hx, hy]
  · refine ⟨?_, by simp [hx], by simp [hx]⟩
    rw [if_neg hx, if_neg (by rintro ⟨rfl, hmem⟩; exact hx hmem)]

/-- New data in the buffers there are. -/
theorem updateAll_buf (c : Cache α) (d : ℕ → α) (l : List ℕ) (y : ℕ) :
    (l.foldl (fun c x => c.updateIfCached x fun _ => d x) c).buf y =
        (if y ∈ l ∧ y ∈ c.lbaRoot then { c.buf y with data := d y } else c.buf y) ∧
      (l.foldl (fun c x => c.updateIfCached x fun _ => d x) c).lbaRoot = c.lbaRoot ∧
      (l.foldl (fun c x => c.updateIfCached x fun _ => d x) c).device = c.device := by
  induction l generalizing c with
  | nil => simp
  | cons x rest ih =>
      obtain ⟨hbuf, hlba, hdev⟩ := ih (c.updateIfCached x fun _ => d x)
      obtain ⟨hbuf', hlba', hdev'⟩ := updateIfCached_buf c x y fun _ => d x
      refine ⟨?_, hlba.trans hlba', hdev.trans hdev'⟩
      rw [List.foldl_cons, hbuf, hbuf', hlba']
      by_cases hmem : y ∈ c.lbaRoot
      · by_cases hx : y = x
        · subst hx
          by_cases hrest : y ∈ rest <;> simp [hmem, hrest]
        · by_cases hrest : y ∈ rest <;> simp [hmem, hrest, hx]
      · simp [hmem]

/-- A line whose buffer has new data. -/
theorem line_data {c : Cache α} {x : ℕ} {d : α} (hdata : x ∈ c.lbaRoot → (c.buf x).data = d)
    (l : WriteBack.Line α) (hl : c.line x = some l) : l.data = d := by
  unfold Cache.line at hl
  split at hl
  · next h =>
      cases hl
      exact hdata h.1
  · cases hl

/-- A buffer whose contents alone change has a line if it had one. -/
theorem line_none {c c' : Cache α} {x : ℕ} (hlba : x ∈ c'.lbaRoot ↔ x ∈ c.lbaRoot)
    (hup : (c'.buf x).uptodate = (c.buf x).uptodate) (hn : c.line x = none) : c'.line x = none := by
  unfold Cache.line at hn ⊢
  simp only [hlba, hup]
  split at hn
  · cases hn
  · next h => exact if_neg h

/-- What a write of a range does to the data of its blocks and of the others, if it gets the device
    and the buffers to agree where it works, and leaves the others alone. -/
theorem Coherent.written_at {s : DirectState α} (h : Coherent s) {first cnt : ℕ} {d : ℕ → α}
    {left : Option (ℕ → α)} {c' : Cache α} {x : ℕ}
    (hin : InRange first cnt x → left.isNone → WriteBack.At (some (d x)) (c'.line x) (c'.device x))
    (hout : ¬ InRange first cnt x → KeptAt s.cache c' x) :
    WriteBack.At (written s.direct first cnt d left x) (c'.line x) (c'.device x) := by
  unfold written
  by_cases hx : InRange first cnt x
  · rw [if_pos hx]
    cases left with
    | none => exact hin hx rfl
    | some left => exact .unknown
  · rw [if_neg hx]
    exact hout hx _ (h.transparent x)

/-- The device alone changes. -/
theorem setDirect_quiet (c : Cache α) (first cnt : ℕ) (d : ℕ → α) (left : Option (ℕ → α)) {x : ℕ}
    (hx : ¬ InRange first cnt x) : QuietAt c (c.setDirect first cnt d left).2 x := by
  cases left with
  | none => exact .of_buf Iff.rfl rfl (if_neg hx)
  | some left => exact .of_buf Iff.rfl rfl (if_neg hx)

theorem setDirect_line (c : Cache α) (first cnt : ℕ) (d : ℕ → α) (left : Option (ℕ → α)) (x : ℕ) :
    (c.setDirect first cnt d left).2.line x = c.line x := by
  cases left <;> exact line_congr Iff.rfl rfl rfl rfl

theorem Coherent.flushRun {s : DirectState α} (h : Coherent s) (first cnt : ℕ) (d : ℕ → α)
    (left : Option (ℕ → α)) (x : ℕ) :
    WriteBack.At (written s.direct first cnt d left x)
        ((s.cache.bridgeFlushRun first cnt d left).2.line x)
        ((s.cache.bridgeFlushRun first cnt d left).2.device x) ∧
      (s.cache.line x = none → (s.cache.bridgeFlushRun first cnt d left).2.line x = none) := by
  cases left with
  | some left =>
      exact ⟨h.written_at (fun _ hok => absurd hok Bool.false_ne_true) fun hx =>
        (setDirect_quiet s.cache first cnt d (some left) hx).kept, fun hn =>
        (setDirect_line s.cache first cnt d (some left) x).trans hn⟩
  | none =>
      have hmem : x ∈ List.range' first cnt ↔ InRange first cnt x := List.mem_range'_1
      obtain ⟨hbuf, hlba, hdev⟩ :=
        updateAll_buf (s.cache.setDeviceRange first cnt d) d (List.range' first cnt) x
      simp only [hmem] at hbuf
      unfold Cache.bridgeFlushRun
      simp only [andThen, Cache.setDirect, if_true]
      generalize (List.range' first cnt).foldl (fun c x => c.updateIfCached x fun _ => d x)
        (s.cache.setDeviceRange first cnt d) = c' at hbuf hlba hdev
      refine ⟨h.written_at (fun hx _ => ?_) fun hx => ?_, fun hn => ?_⟩
      · have hdevice : c'.device x = d x := by
          rw [hdev]
          exact if_pos hx
        rw [hdevice]
        refine .through (line_data fun hm => ?_)
        rw [hbuf, if_pos ⟨hx, hlba ▸ hm⟩]
      · have hquiet : QuietAt s.cache c' x := by
          refine .of_buf (by rw [hlba]; rfl) ?_ ?_
          · rw [hbuf, if_neg fun hn => hx hn.1]
            rfl
          · rw [hdev]
            exact if_neg hx
        exact hquiet.kept
      · refine line_none (c := s.cache) (by rw [hlba]; rfl) ?_ hn
        rw [hbuf]
        split <;> rfl

theorem Coherent.writePart {s : DirectState α} (h : Coherent s) (y : ℕ) (f : α → α)
    (left : Option α) (x : ℕ) :
    WriteBack.At (known s (.writePart y f left) x) ((s.cache.writePart y f left).2.line x)
        ((s.cache.writePart y f left).2.device x) ∧
      (s.cache.line x = none → (s.cache.writePart y f left).2.line x = none) := by
  have hknown : x ≠ y → known s (.writePart y f left) x = s.direct x := fun hx =>
    Function.update_of_ne hx ..
  cases left with
  | some left =>
      have hline : (s.cache.setDevice y left).line x = s.cache.line x :=
        line_congr Iff.rfl rfl rfl rfl
      refine ⟨?_, fun hn => hline.trans hn⟩
      by_cases hx : x = y
      · subst hx
        have hnone : known s (.writePart x f (some left)) x = none := Function.update_self ..
        rw [hnone]
        exact .unknown
      · have hquiet : QuietAt s.cache (s.cache.setDevice y left) x :=
          .of_buf Iff.rfl rfl (by simp [hx])
        rw [hknown hx]
        exact hquiet.kept _ (h.transparent x)
  | none =>
      unfold Cache.writePart
      dsimp only
      obtain ⟨hbuf, hlba, hdev⟩ :=
        updateIfCached_buf (s.cache.setDevice y (f (s.cache.device y))) y x f
      generalize (s.cache.setDevice y (f (s.cache.device y))).updateIfCached y f = c'
        at hbuf hlba hdev
      have hlba' : x ∈ c'.lbaRoot ↔ x ∈ s.cache.lbaRoot := by
        rw [hlba]
        rfl
      refine ⟨?_, fun hn => line_none hlba' (by rw [hbuf]; split <;> rfl) hn⟩
      by_cases hx : x = y
      · subst hx
        have hdevice : c'.device x = f (s.cache.device x) := by simp [hdev]
        have hknown' : known s (.writePart x f none) x = (s.direct x).map f :=
          Function.update_self ..
        have hline : c'.line x = (s.cache.line x).map fun l => ⟨f l.data, l.dirty⟩ := by
          unfold Cache.line
          by_cases hm : x ∈ s.cache.lbaRoot
          · by_cases hup : (s.cache.buf x).uptodate = true <;> simp [hlba', hbuf, hm, hup]
          · simp [hlba', hm]
        rw [hknown', hline, hdevice]
        exact (h.transparent x).map f
      · have hquiet : QuietAt s.cache c' x := by
          refine .of_buf hlba' ?_ (by simp [hdev, hx])
          rw [hbuf, if_neg fun hn => hx hn.1]
          rfl
        rw [hknown hx]
        exact hquiet.kept _ (h.transparent x)

/-- Blocks nobody got may be written past the cache. -/
theorem Coherent.setDirect {s : DirectState α} (h : Coherent s) {first cnt : ℕ} {d : ℕ → α}
    {left : Option (ℕ → α)} (hfree : ∀ x ∈ List.range' first cnt, s.touched x = false) (x : ℕ) :
    WriteBack.At (written s.direct first cnt d left x) ((s.cache.setDirect first cnt d left).2.line x)
      ((s.cache.setDirect first cnt d left).2.device x) := by
  refine h.written_at (fun hx hok => ?_) fun hx => (setDirect_quiet s.cache first cnt d left hx).kept
  rw [setDirect_line, h.untouched x (hfree x (List.mem_range'_1.mpr hx))]
  cases left with
  | none =>
      have hdevice : (s.cache.setDirect first cnt d none).2.device x = d x := if_pos hx
      rw [hdevice]
      exact .absent
  | some left => cases hok

/-- What an invalidation that finds its buffers does to the lines. -/
theorem invalidateLba_lines {c : Cache α} (h : Wf c) {first cnt : ℕ} (hcnt : 1 ≤ cnt)
    (hend : first + cnt ≤ 2 ^ 64) (hcovered : Covered c first cnt) (x : ℕ) :
    (InRange first cnt x → (c.invalidateLba first cnt).line x = none) ∧
      (¬ InRange first cnt x → QuietAt c (c.invalidateLba first cnt) x) ∧
      (c.invalidateLba first cnt).device = c.device := by
  have hinv := h.invalidateLba_invalidated first cnt
  refine ⟨fun hx => ((invalidateLba_iff h hcnt hend).mpr hcovered).1.line hx,
    fun hx => hinv.quietAt fun hin => hx ((h.mem_walkFrom hcnt hend).mp hin).2.2, hinv.device⟩

theorem Coherent.setDirectInvalidate {s : DirectState α} (h : Coherent s) {first cnt : ℕ}
    {d : ℕ → α} {left : Option (ℕ → α)} {always : Bool} (hcnt : 1 ≤ cnt)
    (hend : first + cnt ≤ 2 ^ 64)
    (hfinds : left.isNone ∨ always = true → Covered s.cache first cnt) (x : ℕ) :
    WriteBack.At (written s.direct first cnt d left x)
        ((s.cache.setDirectInvalidate first cnt d left always).2.line x)
        ((s.cache.setDirectInvalidate first cnt d left always).2.device x) ∧
      (s.cache.line x = none →
        (s.cache.setDirectInvalidate first cnt d left always).2.line x = none) := by
  have hok : (s.cache.setDirect first cnt d left).1 = .EOK ↔ left.isNone := by
    cases left <;> simp [Cache.setDirect]
  have hsame : (s.cache.setDirect first cnt d left).2.lbaRoot = s.cache.lbaRoot ∧
      (s.cache.setDirect first cnt d left).2.buf = s.cache.buf := by
    cases left <;> exact ⟨rfl, rfl⟩
  have hquiet : ¬ InRange first cnt x → QuietAt s.cache (s.cache.setDirect first cnt d left).2 x :=
    setDirect_quiet s.cache first cnt d left
  have hline := setDirect_line s.cache first cnt d left x
  have hdevice : InRange first cnt x → left.isNone →
      (s.cache.setDirect first cnt d left).2.device x = d x := by
    intro hx hnone
    cases left with
    | none => exact if_pos hx
    | some left => cases hnone
  unfold Cache.setDirectInvalidate
  simp only [hok]
  by_cases hinv : left.isNone ∨ always = true
  · rw [if_pos hinv]
    have hcovered : Covered (s.cache.setDirect first cnt d left).2 first cnt := by
      unfold Covered Cleared
      rw [hsame.1, hsame.2]
      exact hfinds hinv
    obtain ⟨hin, hout, hdev⟩ :=
      invalidateLba_lines (h.wf.setDirect first cnt d left) hcnt hend hcovered x
    refine ⟨h.written_at (fun hx hnone => ?_) fun hx => ((hquiet hx).trans (hout hx)).kept,
      fun hn => ?_⟩
    · rw [hin hx, hdev, hdevice hx hnone]
      exact .absent
    · by_cases hx : InRange first cnt x
      · exact hin hx
      · exact (hout hx).lines (hline.trans hn)
  · rw [if_neg hinv]
    exact ⟨h.written_at (fun _ hnone => absurd (.inl hnone) hinv) fun hx => (hquiet hx).kept,
      fun hn => hline.trans hn⟩

/-! ## Runs -/

theorem wf_perform {s : DirectState α} (h : Coherent s) {a : Act α} (hfinds : Finds s a)
    (hallowed : Allowed s a) : Wf (perform s.cache a) := by
  cases a with
  | call e => exact wf_exec h.wf hfinds.fresh hallowed
  | flushRun first cnt d left => exact h.wf.bridgeFlushRun first cnt d left
  | writePart x f left => exact h.wf.writePart x f left
  | setDirect first cnt d left => exact h.wf.setDirect first cnt d left
  | setDirectInvalidate first cnt d left always =>
      exact h.wf.setDirectInvalidate first cnt d left always

theorem Coherent.act {s t : DirectState α} (h : Coherent s) {a : Act α} (hfinds : Finds s a)
    (htaken : act s a = some t) : Coherent t := by
  unfold Bcache.act at htaken
  split at htaken
  · next hallowed =>
      cases htaken
      refine ⟨wf_perform h hfinds hallowed, fun x => ?_, fun x hx => ?_⟩
      · cases a with
        | call e => exact h.call_at hfinds hallowed x
        | flushRun first cnt d left => exact (h.flushRun first cnt d left x).1
        | writePart y f left => exact (h.writePart y f left x).1
        | setDirect first cnt d left => exact h.setDirect hallowed x
        | setDirectInvalidate first cnt d left always =>
            exact (h.setDirectInvalidate hallowed.1 hallowed.2 hfinds x).1
      · cases a with
        | call e => exact h.call_lines hfinds hallowed hx
        | flushRun first cnt d left => exact (h.flushRun first cnt d left x).2 (h.untouched x hx)
        | writePart y f left => exact (h.writePart y f left x).2 (h.untouched x hx)
        | setDirect first cnt d left =>
            exact (setDirect_line s.cache first cnt d left x).trans (h.untouched x hx)
        | setDirectInvalidate first cnt d left always =>
            exact (h.setDirectInvalidate hallowed.1 hallowed.2 hfinds x).2 (h.untouched x hx)
  · cases htaken

/-- A cache that was just set up. -/
structure DirectStart (s : DirectState α) : Prop where
  lbaRoot : s.cache.lbaRoot = []
  lruRoot : s.cache.lruRoot = []
  dirtyList : s.cache.dirtyList = []
  refBlocks : s.cache.refBlocks = 0
  direct : s.direct = fun _ => none

theorem DirectStart.coherent {s : DirectState α} (h : DirectStart s) : Coherent s := by
  obtain ⟨hlba, hlru, hlist, hcount, hdirect⟩ := h
  have hstart : Start (⟨s.cache, fun x => some (s.cache.device x)⟩ : State α) :=
    ⟨hlba, hlru, hlist, hcount, rfl⟩
  refine ⟨hstart.good.wf, fun x => ?_, fun x _ => line_of_not_mem (by simp [hlba])⟩
  rw [hdirect]
  exact .unknown

/-- **Coherence of the cache with direct writes**. An invalidation clears its range, and leaves the
    other buffers, if and only if there is a buffer of its first block or nothing to clear. And in
    every run whose invalidations are of that kind, a block that was freed and is written past the
    cache keeps its data: no buffer of it has anything else to write back or to serve, and a read
    through the cache brings the data. -/
theorem cache_coherent :
    (∀ (c : Cache α) (first cnt : ℕ), Wf c → 1 ≤ cnt → first + cnt ≤ 2 ^ 64 →
      (Cleared (c.invalidateLba first cnt) first cnt ∧
        OthersSame first cnt c (c.invalidateLba first cnt) ↔ Covered c first cnt)) ∧
    ∀ s t : DirectState α, DirectStart s → Run act Finds s t → Coherent t ∧
      ∀ (x : ℕ) (d : α), t.direct x = some d →
        (x ∈ t.cache.lbaRoot → (t.cache.buf x).dirty = true → (t.cache.buf x).data = d) ∧
        WriteBack.read (t.cache.line x) (t.cache.device x) = d := by
  refine ⟨fun c first cnt h hcnt hend => invalidateLba_iff h hcnt hend, fun s t hstart hrun => ?_⟩
  have hcoherent : Coherent t :=
    hrun.invariant (fun _ _ _ hfinds htaken h => h.act hfinds htaken) hstart.coherent
  refine ⟨hcoherent, fun x d hd => ?_⟩
  have hat := hcoherent.transparent x
  rw [hd] at hat
  refine ⟨fun hmem hdirty => ?_, hat.read⟩
  exact ((hat d rfl).1 _ (hcoherent.wf.line_of_dirty hmem hdirty)).1

/-- That empty cache again, before anything was written past it. -/
def freshDirect : DirectState ℕ := ⟨blank, fun _ => none, fun _ => false⟩

theorem freshDirect_start : DirectStart freshDirect := ⟨rfl, rfl, rfl, rfl, rfl⟩

/-- Block 11 is changed and waits to be written. It is freed with block 10, which is not in the
    cache, and then written past the cache; the flush puts the old contents over the data. -/
theorem stale_buffer_overwrites_data : ∃ s t : DirectState ℕ, DirectStart s ∧
    Run act (fun _ _ => True) s t ∧ t.direct 11 = some 9 ∧ t.cache.device 11 = 7 := by
  have hdirty : Run act (fun _ _ => True) freshDirect _ :=
    ((((Run.refl freshDirect).event (.call (.writeBack true fun _ => .ok)) trivial rfl).event
      (.call (.get 11 (some 0) true fun _ => .ok)) trivial rfl).event
      (.call (.modify 11 7)) trivial rfl).event (.call (.put 11 .ok)) trivial rfl
  exact ⟨freshDirect, _, freshDirect_start,
    ((hdirty.event (.call (.invalidateLba 10 2)) trivial rfl).event
      (.setDirect 11 1 (fun _ => 9) none) trivial rfl).event
      (.call (.writeBack false fun _ => .ok)) trivial rfl, rfl, rfl⟩

/-- With a buffer of block 10 as well the data stays. -/
theorem cache_coherent_range : Cleared (blank.invalidateLba 10 2) 10 2 ∧
    ∃ t : DirectState ℕ, Run act Finds freshDirect t ∧ t.direct 11 = some 9 ∧
      WriteBack.read (t.cache.line 11) (t.cache.device 11) = 9 := by
  have hblank : Wf blank := freshDirect_start.coherent.wf
  refine ⟨((cache_coherent.1 blank 10 2 hblank (by decide) (by decide)).mpr (.inr (by decide))).1, ?_⟩
  have hrun : Run act Finds freshDirect _ :=
    (((((((Run.refl freshDirect).event (.call (.writeBack true fun _ => .ok)) (by decide) rfl).event
      (.call (.get 10 (some 0) true fun _ => .ok)) (by decide) rfl).event
      (.call (.get 11 (some 0) true fun _ => .ok)) (by decide) rfl).event
      (.call (.modify 11 7)) (by decide) rfl).event (.call (.put 11 .ok)) (by decide) rfl).event
      (.call (.invalidateLba 10 2)) (by decide) rfl).event
      (.setDirect 11 1 (fun _ => 9) none) (by decide) rfl
  exact ⟨_, hrun, rfl, ((cache_coherent.2 freshDirect _ freshDirect_start hrun).2 11 9 rfl).2⟩

end Bcache

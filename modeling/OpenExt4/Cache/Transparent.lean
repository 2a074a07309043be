import OpenExt4.Cache.Invariant
import OpenExt4.Lib.Transitions

set_option autoImplicit false

/-! # The cache is transparent

What the buffers and the device hold of each block, and what the operations of the cache do to it:
no line is lost before it is on the device, a buffer that is got has the latest contents, and a
flush that answers with no error left nothing behind. -/

namespace Bcache

namespace Cache

variable {α : Type} {c c' : Cache α} {x y : ℕ}

/-! ## Lines -/

/-- What the cache holds of a block: the contents of a valid buffer. -/
def line (c : Cache α) (x : ℕ) : Option (WriteBack.Line α) :=
  if x ∈ c.lbaRoot ∧ (c.buf x).uptodate = true then some ⟨(c.buf x).data, (c.buf x).dirty⟩ else none

theorem line_of_uptodate (hmem : x ∈ c.lbaRoot) (hup : (c.buf x).uptodate = true) :
    c.line x = some ⟨(c.buf x).data, (c.buf x).dirty⟩ := if_pos ⟨hmem, hup⟩

theorem line_of_not_mem (hmem : x ∉ c.lbaRoot) : c.line x = none := if_neg fun h => hmem h.1

theorem line_of_not_uptodate (hup : (c.buf x).uptodate = false) : c.line x = none :=
  if_neg fun h => Bool.false_ne_true (hup.symm.trans h.2)

/-- A change that keeps a buffer's contents, and what is said of them, keeps its line. -/
theorem line_congr (hlba : x ∈ c'.lbaRoot ↔ x ∈ c.lbaRoot) (hdata : (c'.buf x).data = (c.buf x).data)
    (hup : (c'.buf x).uptodate = (c.buf x).uptodate) (hdirty : (c'.buf x).dirty = (c.buf x).dirty) :
    c'.line x = c.line x := by
  unfold line
  simp only [hlba, hdata, hup, hdirty]

/-- Nothing of a block is lost: whatever its latest contents are, they still are. -/
def KeptAt (c c' : Cache α) (y : ℕ) : Prop :=
  ∀ latest, WriteBack.At latest (c.line y) (c.device y) → WriteBack.At latest (c'.line y) (c'.device y)

/-- Nothing of a block is lost, and it does not come into the cache. -/
structure QuietAt (c c' : Cache α) (y : ℕ) : Prop where
  kept : KeptAt c c' y
  lines : c.line y = none → c'.line y = none

theorem QuietAt.trans {c'' : Cache α} (h : QuietAt c c' y) (h' : QuietAt c' c'' y) :
    QuietAt c c'' y :=
  ⟨fun latest hat => h'.kept latest (h.kept latest hat), fun hn => h'.lines (h.lines hn)⟩

/-- Nothing changes that the line of a block is made of. -/
theorem QuietAt.of_buf (hlba : y ∈ c'.lbaRoot ↔ y ∈ c.lbaRoot) (hbuf : c'.buf y = c.buf y)
    (hdev : c'.device y = c.device y) : QuietAt c c' y := by
  have hline := line_congr hlba (by rw [hbuf]) (by rw [hbuf]) (by rw [hbuf])
  refine ⟨fun latest hat => ?_, fun hn => hline.trans hn⟩
  rw [hline, hdev]
  exact hat

/-- **Nothing is lost**, and no block comes into the cache. -/
def Quiet (c c' : Cache α) : Prop := ∀ y, QuietAt c c' y

theorem Quiet.refl (c : Cache α) : Quiet c c := fun _ => ⟨fun _ hat => hat, fun hn => hn⟩

theorem Quiet.trans {c'' : Cache α} (h : Quiet c c') (h' : Quiet c' c'') : Quiet c c'' :=
  fun y => (h y).trans (h' y)

/-- Nothing changes that lines are made of. -/
theorem Quiet.of_buf (hlba : c'.lbaRoot = c.lbaRoot) (hdev : c'.device = c.device)
    (hbuf : ∀ y, (c'.buf y).data = (c.buf y).data ∧ (c'.buf y).uptodate = (c.buf y).uptodate ∧
      (c'.buf y).dirty = (c.buf y).dirty) : Quiet c c' := by
  intro y
  obtain ⟨hdata, hup, hdirty⟩ := hbuf y
  have hline := line_congr (by rw [hlba]) hdata hup hdirty
  refine ⟨fun latest hat => ?_, fun hn => hline.trans hn⟩
  rw [hline, hdev]
  exact hat

/-- One block is seen to, and the others are left alone. -/
theorem Quiet.one (hlba : ∀ y, y ≠ x → (y ∈ c'.lbaRoot ↔ y ∈ c.lbaRoot))
    (hbuf : ∀ y, y ≠ x → c'.buf y = c.buf y) (hdev : ∀ y, y ≠ x → c'.device y = c.device y)
    (hx : QuietAt c c' x) : Quiet c c' := by
  intro y
  by_cases hy : y = x
  · exact hy ▸ hx
  · exact .of_buf (hlba y hy) (hbuf y hy) (hdev y hy)

/-- A quiet change, but for one block that may come into the cache. -/
def Loads (x : ℕ) (c c' : Cache α) : Prop :=
  ∀ y, KeptAt c c' y ∧ (y ≠ x → c.line y = none → c'.line y = none)

theorem Quiet.loads (h : Quiet c c') (x : ℕ) : Loads x c c' :=
  fun y => ⟨(h y).kept, fun _ => (h y).lines⟩

theorem Loads.trans {c'' : Cache α} (h : Loads x c c') (h' : Loads x c' c'') : Loads x c c'' :=
  fun y => ⟨fun latest hat => (h' y).1 latest ((h y).1 latest hat),
    fun hy hn => (h' y).2 hy ((h y).2 hy hn)⟩

/-- A change of a buffer that leaves its contents, and what is said of them. -/
theorem Quiet.setBuf (c : Cache α) (x : ℕ) {f : Buf α → Buf α}
    (hdata : (f (c.buf x)).data = (c.buf x).data)
    (hup : (f (c.buf x)).uptodate = (c.buf x).uptodate)
    (hdirty : (f (c.buf x)).dirty = (c.buf x).dirty) : Quiet c (c.setBuf x f) := by
  refine .of_buf rfl rfl fun y => ?_
  by_cases hy : y = x
  · subst hy
    simp [hdata, hup, hdirty]
  · simp [hy]

theorem Quiet.setDontShake (c : Cache α) (b : Bool) : Quiet c (c.setDontShake b) :=
  .of_buf rfl rfl fun _ => ⟨rfl, rfl, rfl⟩

theorem Quiet.setIoErr (c : Cache α) (b : Bool) : Quiet c (c.setIoErr b) :=
  .of_buf rfl rfl fun _ => ⟨rfl, rfl, rfl⟩

theorem Quiet.setWriteBack (c : Cache α) (n : ℕ) : Quiet c (c.setWriteBack n) :=
  .of_buf rfl rfl fun _ => ⟨rfl, rfl, rfl⟩

theorem Quiet.removeLru (c : Cache α) (x : ℕ) : Quiet c (c.removeLru x) :=
  .of_buf rfl rfl fun _ => ⟨rfl, rfl, rfl⟩

theorem Quiet.takeOff (c : Cache α) (x : ℕ) : Quiet c (c.takeOff x) :=
  (Quiet.setBuf c x (f := fun b => { b with onDirtyList := false }) rfl rfl rfl).trans
    (.of_buf rfl rfl fun _ => ⟨rfl, rfl, rfl⟩)

theorem Quiet.takeId (c : Cache α) (x : ℕ) : Quiet c (c.takeId x) :=
  (Quiet.setBuf c x (f := fun b => { b with lruId := (c.lruCtr + 1) % 2 ^ 32 }) rfl rfl rfl).trans
    (.of_buf rfl rfl fun _ => ⟨rfl, rfl, rfl⟩)

theorem Quiet.insertLru (c : Cache α) (x : ℕ) : Quiet c (c.insertLru x) := by
  unfold Cache.insertLru
  split
  · exact .refl c
  · exact .of_buf rfl rfl fun _ => ⟨rfl, rfl, rfl⟩

theorem Quiet.insertDirtyNode (c : Cache α) (x : ℕ) : Quiet c (c.insertDirtyNode x) := by
  unfold Cache.insertDirtyNode
  split
  · exact .refl c
  · exact (Quiet.setBuf c x (f := fun b => { b with onDirtyList := true }) rfl rfl rfl).trans
      (.of_buf rfl rfl fun _ => ⟨rfl, rfl, rfl⟩)

theorem Quiet.reportWrite (c : Cache α) (x : ℕ) : Quiet c (c.reportWrite x) := by
  unfold Cache.reportWrite
  split
  · exact (Quiet.setBuf c x rfl rfl rfl).trans (.setDontShake _ _)
  · exact .refl c

theorem Quiet.findGet (h : Wf c) (hmem : x ∈ c.lbaRoot) : Quiet c (c.findGet x) := by
  by_cases href : (c.buf x).refctr = 0
  · rw [findGet_eq h hmem href]
    exact (((Quiet.takeId c x).trans (.removeLru _ x)).trans (.takeOff _ x)).trans
      (.setBuf _ x rfl rfl rfl)
  · unfold Cache.findGet
    rw [if_neg href]
    exact .setBuf c x rfl rfl rfl

/-! ## Writing a buffer back -/

/-- A buffer that is dirty holds the line of its block. -/
theorem Wf.line_of_dirty (h : Wf c) (hmem : x ∈ c.lbaRoot) (hdirty : (c.buf x).dirty = true) :
    c.line x = some ⟨(c.buf x).data, true⟩ := by
  rw [line_of_uptodate hmem ((h.placed x).valid hmem hdirty), hdirty]

theorem Quiet.flushBuf (h : Wf c) (hmem : x ∈ c.lbaRoot) (w : WriteRes α) :
    Quiet c (c.flushBuf x w).2 := by
  unfold Cache.flushBuf
  split
  · next hdirty =>
      have hline := h.line_of_dirty hmem hdirty.1
      cases w with
      | fail left =>
          -- behind a dirty buffer the device may hold anything
          have htorn : Quiet c (c.setDevice x left) := by
            have hsame : (c.setDevice x left).line x = c.line x := line_congr Iff.rfl rfl rfl rfl
            refine .one (x := x) (fun _ _ => Iff.rfl) (fun _ _ => rfl) (fun y hy => by simp [hy])
              ⟨fun latest hat => ?_, fun hn => hsame.trans hn⟩
            rw [hsame, hline]
            rw [hline] at hat
            exact hat.torn rfl _
          exact htorn.trans (.reportWrite _ x)
      | ok =>
          dsimp only
          rw [removeDirtyNode_eq ((h.setDevice x _).placed x).off]
          refine Quiet.trans ?_ (.reportWrite _ x)
          refine .one (x := x) (fun _ _ => Iff.rfl) (fun y hy => by simp [hy])
            (fun y hy => by simp [hy]) ⟨fun latest hat => ?_, fun hn => ?_⟩
          · rw [hline] at hat
            rw [line_of_uptodate (by simpa using hmem) (by simpa using hdirty.2)]
            simpa using hat.writeBack
          · rw [hline] at hn
            exact absurd hn (Option.some_ne_none _)
  · exact .refl c

section ReportWrite

variable (c : Cache α) (x : ℕ)

@[simp] theorem reportWrite_device : (c.reportWrite x).device = c.device := by
  unfold Cache.reportWrite
  split <;> rfl

@[simp] theorem reportWrite_dirtyList : (c.reportWrite x).dirtyList = c.dirtyList := by
  unfold Cache.reportWrite
  split <;> rfl

@[simp] theorem reportWrite_ioErr : (c.reportWrite x).ioErr = c.ioErr := by
  unfold Cache.reportWrite
  split <;> rfl

/-- Only the callback of a buffer changes. -/
theorem reportWrite_buf (y : ℕ) : ∃ e, (c.reportWrite x).buf y = { c.buf y with endWrite := e } := by
  unfold Cache.reportWrite
  split
  · by_cases hy : y = x
    · subst hy
      exact ⟨false, by simp⟩
    · exact ⟨(c.buf y).endWrite, by simp [hy]⟩
  · exact ⟨(c.buf y).endWrite, rfl⟩

end ReportWrite

/-- The buffer of a block is clean, and the device has its contents. -/
def Landed (c : Cache α) (x : ℕ) : Prop := (c.buf x).dirty = false ∧ c.device x = (c.buf x).data

/-- What a flush of a dirty buffer comes to that works. -/
theorem Wf.flushBuf_landed (h : Wf c) (hmem : x ∈ c.lbaRoot) (hdirty : (c.buf x).dirty = true)
    {w : WriteRes α} (hok : (c.flushBuf x w).1 = .EOK) :
    Landed (c.flushBuf x w).2 x ∧ (c.flushBuf x w).2.dirtyList = c.dirtyList.erase x := by
  have hvalid := (h.placed x).valid hmem hdirty
  unfold Cache.flushBuf at hok ⊢
  simp only [hdirty, hvalid, and_self, if_true] at hok ⊢
  cases w with
  | fail left => cases hok
  | ok =>
      dsimp only
      rw [removeDirtyNode_eq ((h.setDevice x _).placed x).off]
      obtain ⟨e, hbuf⟩ := reportWrite_buf (((c.setDevice x (c.buf x).data).takeOff x).setBuf x
        fun b => { b with dirty := false }) x x
      unfold Landed
      rw [hbuf]
      simp

/-- A flush that works leaves the buffer clean. -/
theorem Wf.flushBuf_clean (h : Wf c) (hmem : x ∈ c.lbaRoot) {w : WriteRes α}
    (hok : (c.flushBuf x w).1 = .EOK) : ((c.flushBuf x w).2.buf x).dirty = false := by
  by_cases hdirty : (c.buf x).dirty = true
  · exact (h.flushBuf_landed hmem hdirty hok).1.1
  · unfold Cache.flushBuf
    rw [if_neg fun hn => hdirty hn.1]
    exact eq_false_of_ne_true hdirty

/-- A flush of a buffer leaves the others alone, and the latched error. -/
theorem Wf.flushBuf_elsewhere (h : Wf c) (w : WriteRes α) (hy : y ≠ x) :
    (∃ e, (c.flushBuf x w).2.buf y = { c.buf y with endWrite := e }) ∧
      (c.flushBuf x w).2.device y = c.device y := by
  unfold Cache.flushBuf
  split
  · cases w with
    | fail left =>
        obtain ⟨e, hbuf⟩ := reportWrite_buf (c.setDevice x left) x y
        exact ⟨⟨e, hbuf⟩, by simp [hy]⟩
    | ok =>
        dsimp only
        rw [removeDirtyNode_eq ((h.setDevice x _).placed x).off]
        obtain ⟨e, hbuf⟩ := reportWrite_buf (((c.setDevice x (c.buf x).data).takeOff x).setBuf x
          fun b => { b with dirty := false }) x y
        exact ⟨⟨e, by simpa [hy] using hbuf⟩, by simp [hy]⟩
  · exact ⟨⟨(c.buf y).endWrite, rfl⟩, rfl⟩

/-- A clean buffer may be dropped, and no other block is touched. -/
theorem QuietAt.dropBuf (h : Wf c) (hmem : x ∈ c.lbaRoot) (hclean : y = x → (c.buf x).dirty = false) :
    QuietAt c (c.dropBuf x) y := by
  rw [dropBuf_eq h hmem]
  by_cases hy : y = x
  · subst hy
    have hgone : y ∉ (((c.removeLru y).removeLba y).takeOff y).lbaRoot := by
      simp [h.nodup.mem_erase_iff]
    refine ⟨fun latest hat => ?_, fun _ => line_of_not_mem hgone⟩
    rw [line_of_not_mem hgone]
    by_cases hup : (c.buf y).uptodate = true
    · rw [line_of_uptodate hmem hup] at hat
      exact hat.drop (hclean rfl)
    · rw [line_of_not_uptodate (eq_false_of_ne_true hup)] at hat
      exact hat
  · exact .of_buf (List.mem_erase_of_ne hy) (by simp [hy]) rfl

/-! ## Eviction and release -/

theorem Quiet.shakeLoop (fuel : ℕ) (h : Wf c) (w : ℕ → WriteRes α) :
    Quiet c (shakeLoop fuel c w).2 := by
  induction fuel generalizing c with
  | zero => exact .refl c
  | succ fuel ih =>
      unfold Cache.shakeLoop
      split
      · exact .refl c
      · next x hlow =>
          rw [flushBuf_ifDirty]
          have hmem := (h.lowest hlow).1
          have hflush := Quiet.flushBuf h hmem (w x)
          split
          · refine andThen_keeps hflush fun hok => ?_
            have hdrop : Quiet (c.flushBuf x (w x)).2 ((c.flushBuf x (w x)).2.dropBuf x) :=
              fun y => .dropBuf (h.flushBuf x (w x)) (by simpa using hmem) fun _ =>
                h.flushBuf_clean hmem hok
            exact (hflush.trans hdrop).trans (ih (h.evict hlow (w x)).1)
          · exact .refl c

theorem Quiet.shake (h : Wf c) (w : ℕ → WriteRes α) : Quiet c (c.shake w).2 := by
  unfold Cache.shake
  split
  · exact .refl c
  · exact ((Quiet.setDontShake c true).trans (.shakeLoop _ (h.setDontShake true) w)).trans
      (.setDontShake _ false)

/-- A new buffer has nothing to say yet. -/
theorem Quiet.alloc (h : Wf c) (mem : Option α) : Quiet c (c.alloc x mem).2 := by
  unfold Cache.alloc
  by_cases hmem : x ∈ c.lbaRoot
  · rw [if_pos hmem]
    exact .findGet h hmem
  rw [if_neg hmem]
  cases mem with
  | none => exact .refl c
  | some junk =>
      refine .one (x := x) (fun y hy => by simp [incRef, List.mem_orderedInsert, hy])
        (fun y hy => by simp [incRef, hy]) (fun _ _ => rfl) ?_
      have hline := line_of_not_uptodate (c := (((c.setBuf x fun _ => newBuf junk).insertLba
        x).incRef x).takeId x) (x := x) (by simp [incRef, newBuf])
      refine ⟨fun latest hat => ?_, fun _ => hline⟩
      rw [hline]
      rw [line_of_not_mem hmem] at hat
      exact hat

theorem Quiet.settle (h : Wf c) (hmem : x ∈ c.lbaRoot) (w : WriteRes α) : Quiet c (c.settle x w) := by
  unfold Cache.settle
  split
  · split
    · exact .insertDirtyNode c x
    · have hflush := Quiet.flushBuf h hmem w
      dsimp only
      refine Quiet.trans ?_ (.setBuf _ x rfl rfl rfl)
      split
      · exact hflush
      · exact hflush.trans (.setIoErr _ true)
  · exact .refl c

@[simp] theorem removeDirtyNode_tmp (c : Cache α) (x : ℕ) :
    ((c.removeDirtyNode x).buf x).tmp = (c.buf x).tmp := by
  unfold Cache.removeDirtyNode
  split
  · simp [Cache.setBuf]
  · rfl

@[simp] theorem flushBuf_tmp (c : Cache α) (x : ℕ) (w : WriteRes α) :
    ((c.flushBuf x w).2.buf x).tmp = (c.buf x).tmp := by
  unfold Cache.flushBuf
  split
  · cases w with
    | fail left =>
        obtain ⟨e, hbuf⟩ := reportWrite_buf (c.setDevice x left) x x
        simp [hbuf]
    | ok =>
        dsimp only
        obtain ⟨e, hbuf⟩ := reportWrite_buf (((c.setDevice x (c.buf x).data).removeDirtyNode x).setBuf
          x fun b => { b with dirty := false }) x x
        simp [hbuf]
  · rfl

@[simp] theorem settle_tmp (c : Cache α) (x : ℕ) (w : WriteRes α) :
    ((c.settle x w).buf x).tmp = (c.buf x).tmp := by
  unfold Cache.settle
  split
  · split
    · unfold Cache.insertDirtyNode
      split
      · rfl
      · simp [Cache.setBuf]
    · dsimp only
      split <;> simp [setIoErr]
  · rfl

/-- A buffer that is not kept after its release is clean, unless its last write failed. -/
theorem Wf.settle_clean (h : Wf c) (hmem : x ∈ c.lbaRoot) (htmp : (c.buf x).tmp = true)
    {w : WriteRes α} (hok : (c.buf x).dirty = true → w = .ok) :
    ((c.settle x w).buf x).dirty = false := by
  unfold Cache.settle
  by_cases hdirty : (c.buf x).dirty = true
  · have hw := hok hdirty
    have hvalid := (h.placed x).valid hmem hdirty
    subst hw
    have hflushed : (c.flushBuf x .ok).1 = .EOK := by simp [Cache.flushBuf, hdirty, hvalid]
    simp [hdirty, hvalid, htmp, hflushed, h.flushBuf_clean hmem hflushed]
  · rw [if_neg fun hn => hdirty hn.1]
    exact eq_false_of_ne_true hdirty

/-- The release of the buffer throws away contents the device did not take: it is the last, of a
    buffer that is not kept, and its write fails. -/
def Loses (c : Cache α) (x : ℕ) (w : WriteRes α) : Prop :=
  (c.buf x).refctr = 1 ∧ (c.buf x).tmp = true ∧ (c.buf x).dirty = true ∧ w ≠ .ok

instance (w : WriteRes α) : Decidable (w = .ok) :=
  match w with
  | .ok => isTrue rfl
  | .fail _ => isFalse nofun

instance (c : Cache α) (x : ℕ) (w : WriteRes α) : Decidable (Loses c x w) :=
  inferInstanceAs (Decidable (_ ∧ _))

/-- A release loses nothing, unless it throws away what the device did not take; and it touches no
    other block. -/
theorem QuietAt.free (h : Wf c) (hmem : x ∈ c.lbaRoot) (href : (c.buf x).refctr ≠ 0) {w : WriteRes α}
    (hlost : y = x → ¬ Loses c x w) : QuietAt c (c.free x w) y := by
  have hdec : Quiet c (c.decRef x) := .setBuf c x rfl rfl rfl
  unfold Cache.free
  dsimp only
  split
  · exact hdec y
  · next hlast =>
      simp only [decRef, setBuf_self, not_not] at hlast
      have hone : (c.buf x).refctr = 1 := by omega
      have hunref := h.unref hmem hone
      have hmem' : x ∈ ((c.decRef x).insertLru x).lbaRoot := by simpa [decRef] using hmem
      have href' : (((c.decRef x).insertLru x).buf x).refctr = 0 := by simp [decRef, hlast]
      have hsettled := hunref.settle hmem' href' w
      have hquiet := (hdec.trans (.insertLru _ x)).trans (.settle hunref hmem' w)
      split
      · next hdrop =>
          refine (hquiet y).trans (.dropBuf hsettled (by simpa using hmem') fun hy => ?_)
          rcases hdrop with hup | htmp
          · -- what is dirty is valid
            refine eq_false_of_ne_true fun hd => Bool.false_ne_true ?_
            exact hup.symm.trans ((hsettled.placed x).valid (by simpa using hmem') hd)
          · rw [settle_tmp] at htmp
            refine hunref.settle_clean hmem' htmp fun hd => ?_
            by_contra hw
            exact hlost hy ⟨hone, by simpa [decRef] using htmp, by simpa [decRef] using hd, hw⟩
      · exact hquiet y

/-! ## Calls -/

theorem Loads.fill (h : Wf c) (hmem : x ∈ c.lbaRoot) (href : (c.buf x).refctr ≠ 0) (readOk : Bool)
    (w : WriteRes α) : Loads x c (c.fill x readOk w).2 := by
  unfold Cache.fill
  split
  · exact (Quiet.refl c).loads x
  · next hup =>
      have hup' := eq_false_of_ne_true hup
      have hclean : (c.buf x).dirty = false :=
        eq_false_of_ne_true fun hd => hup ((h.placed x).valid hmem hd)
      split
      · intro y
        by_cases hy : y = x
        · subst hy
          refine ⟨fun latest hat => ?_, fun hne => absurd rfl hne⟩
          rw [line_of_not_uptodate hup'] at hat
          rw [line_of_uptodate (by simpa using hmem) (by simp)]
          simpa [hclean] using hat.load
        · have hother : QuietAt c (c.setBuf x fun b => { b with data := c.device x, uptodate := true })
              y := .of_buf Iff.rfl (by simp [hy]) rfl
          exact ⟨hother.kept, fun _ => hother.lines⟩
      · have hfree : Quiet c (c.free x w) := fun y => .free h hmem href fun _ hlost =>
          Bool.false_ne_true (hclean.symm.trans hlost.2.2.1)
        exact hfree.loads x

theorem Quiet.getNoreadAt (h : Wf c) (mem : Option α) (w : ℕ → WriteRes α) :
    Quiet c (c.getNoreadAt x mem w).2 :=
  andThen_keeps (.shake h w) fun _ => (Quiet.shake h w).trans (.alloc (h.shake w).1 mem)

theorem Loads.fetch (h : Wf c) (hid : c.FreshId x) (mem : Option α) (readOk : Bool)
    (w : ℕ → WriteRes α) (w' : WriteRes α) :
    Loads x c (andThen (c.getNoreadAt x mem w) fun c' => c'.fill x readOk w').2 := by
  have hgot := (Quiet.getNoreadAt (x := x) h mem w).loads x
  refine andThen_keeps hgot fun hok => ?_
  obtain ⟨hmem, href⟩ := getNoreadAt_held hok
  exact hgot.trans (.fill (h.getNoreadAt hid mem w) hmem href readOk w')

theorem Quiet.getNoread (h : Wf c) (mem : Option α) (w : ℕ → WriteRes α) :
    Quiet c (c.getNoread x mem w).2 := by
  rw [getNoread_eq]
  split
  · exact .getNoreadAt h mem w
  · exact .refl c

theorem Loads.get (h : Wf c) (hid : c.FreshId x) (mem : Option α) (readOk : Bool)
    (w : ℕ → WriteRes α) : Loads x c (c.get x mem readOk w).2 := by
  unfold Cache.get
  rw [getNoread_eq]
  split
  · exact .fetch h hid mem readOk w (w x)
  · exact (Quiet.refl c).loads _

theorem Loads.getSb (h : Wf c) (hid : c.FreshId c.sbLba) (mem : Option α) (readOk : Bool)
    (w : ℕ → WriteRes α) : Loads c.sbLba c (c.getSb mem readOk w).2 := by
  unfold Cache.getSb
  split
  · exact (Quiet.refl c).loads _
  · exact .fetch h hid mem readOk w (w c.sbLba)

theorem findGet_buf (c : Cache α) (x : ℕ) :
    ((c.findGet x).buf x).refctr = (c.buf x).refctr + 1 ∧
      ((c.findGet x).buf x).tmp = (c.buf x).tmp ∧
      ((c.findGet x).buf x).dirty = (c.buf x).dirty := by
  have htaken : ∀ c : Cache α, ((c.removeIfDirty x).buf x).refctr = (c.buf x).refctr ∧
      ((c.removeIfDirty x).buf x).tmp = (c.buf x).tmp ∧
      ((c.removeIfDirty x).buf x).dirty = (c.buf x).dirty := by
    intro c
    unfold Cache.removeIfDirty Cache.removeDirtyNode
    split
    · split
      · simp [Cache.setBuf]
      · simp
    · simp
  unfold Cache.findGet incRef
  split
  · simpa using htaken ((c.takeId x).removeLru x)
  · simp

/-- The release after the flush of a block throws away contents the device did not take. -/
def LosesTwice (c : Cache α) (x : ℕ) (w w' : WriteRes α) : Prop :=
  x ∈ c.lbaRoot ∧ (c.buf x).refctr = 0 ∧ (c.buf x).tmp = true ∧ (c.buf x).dirty = true ∧
    w ≠ .ok ∧ w' ≠ .ok

instance (c : Cache α) (x : ℕ) (w w' : WriteRes α) : Decidable (LosesTwice c x w w') :=
  inferInstanceAs (Decidable (_ ∧ _))

theorem QuietAt.flushLba (h : Wf c) (hid : c.FreshId x) {w w' : WriteRes α}
    (hlost : y = x → ¬ LosesTwice c x w w') : QuietAt c (c.flushLba x w w').2 y := by
  unfold Cache.flushLba
  split
  · next hmem =>
      have hget := h.findGet hmem hid
      obtain ⟨hmem', hheld⟩ := findGet_held hmem
      have hshrunk := hget.flushBuf_shrunk x w
      have hmem'' := hshrunk.held x hmem' hheld
      obtain ⟨href, htmp, hdirty⟩ := findGet_buf c x
      refine ((Quiet.findGet h hmem).trans (.flushBuf hget hmem' w) y).trans
        (.free (hget.flushBuf x w) hmem'' ((hshrunk.buf x hmem'').2.2 ▸ hheld) ?_)
      rintro hy ⟨hone, htmp', hdirty', hw'⟩
      rw [(hshrunk.buf x hmem'').2.2, href] at hone
      rw [flushBuf_tmp, htmp] at htmp'
      by_cases hok : ((c.findGet x).flushBuf x w).1 = .EOK
      · exact Bool.false_ne_true ((hget.flushBuf_clean hmem' hok).symm.trans hdirty')
      · have hd : (c.buf x).dirty = true := by
          rw [← hdirty]
          by_contra hn
          exact hok (by simp [Cache.flushBuf, hn])
        have hw : w ≠ .ok := by
          rintro rfl
          refine hok ?_
          unfold Cache.flushBuf
          split <;> rfl
        exact hlost hy ⟨hmem, by omega, htmp', hd, hw, hw'⟩
  · exact Quiet.refl c y

/-! ## Flushing the cache -/

theorem Quiet.cacheFlushLoop (fuel : ℕ) (h : Wf c) (w : ℕ → WriteRes α) :
    Quiet c (cacheFlushLoop fuel c w).2 := by
  induction fuel generalizing c with
  | zero => exact .refl c
  | succ fuel ih =>
      unfold Cache.cacheFlushLoop
      split
      · exact .refl c
      · next x rest hlist =>
          have hmem := ((h.placed x).dirty_iff.mp (by simp [hlist])).1
          have hflush := Quiet.flushBuf h hmem (w x)
          exact andThen_keeps hflush fun _ => hflush.trans (ih (h.flushBuf x (w x)))

theorem Quiet.cacheFlush (h : Wf c) (w : ℕ → WriteRes α) : Quiet c (c.cacheFlush w).2 :=
  andThen_keeps (.cacheFlushLoop _ h w) fun _ =>
    (Quiet.cacheFlushLoop _ h w).trans (.setIoErr _ false)

theorem Quiet.writeBack (h : Wf c) (on : Bool) (w : ℕ → WriteRes α) :
    Quiet c (c.writeBack on w).2 := by
  unfold Cache.writeBack
  generalize (if on = true then c.cacheWriteBack + 1 else c.cacheWriteBack - 1) = n
  have hset : Quiet c (c.setWriteBack n) := .setWriteBack c n
  have hwf : Wf (c.setWriteBack n) := h.congr rfl rfl rfl rfl rfl
  dsimp only
  split
  · exact hset
  · exact hset.trans (.cacheFlush hwf w)

theorem andThen_ok {σ : Type} {r : Rc × σ} {k : σ → Rc × σ} (hok : (andThen r k).1 = .EOK) :
    r.1 = .EOK ∧ andThen r k = k r.2 := by
  unfold andThen at hok ⊢
  split
  · next h => exact ⟨h, rfl⟩
  · next h =>
      rw [if_neg h] at hok
      exact absurd hok h

/-- What the flush of a listed buffer says of a write that works. -/
theorem Wf.flushBuf_wrote (h : Wf c) (hon : x ∈ c.dirtyList) {w : WriteRes α}
    (hok : (c.flushBuf x w).1 = .EOK) : w = .ok := by
  obtain ⟨hmem, hflag⟩ := (h.placed x).dirty_iff.mp hon
  have hdirty := ((h.placed x).listed hmem hflag).2
  have hvalid := (h.placed x).valid hmem hdirty
  unfold Cache.flushBuf at hok
  cases w with
  | ok => rfl
  | fail left => simp [hdirty, hvalid] at hok

@[simp] theorem flushBuf_ioErr (c : Cache α) (x : ℕ) (w : WriteRes α) :
    (c.flushBuf x w).2.ioErr = c.ioErr := by
  unfold Cache.flushBuf
  split
  · cases w with
    | fail left => simp [Cache.setDevice]
    | ok =>
        dsimp only
        rw [reportWrite_ioErr]
        unfold Cache.removeDirtyNode
        split <;> rfl
  · rfl

/-- What a flush of the dirty list does that works: the list was written, and what was on the device
    still is. -/
structure Flushed (c c' : Cache α) (w : ℕ → WriteRes α) : Prop where
  wrote : ∀ x ∈ c.dirtyList, w x = .ok
  landed : ∀ x ∈ c.lbaRoot, x ∈ c.dirtyList ∨ Landed c x → Landed c' x
  clean : ∀ x ∈ c.lbaRoot, (c.buf x).dirty = false → (c'.buf x).dirty = false
  lbaRoot : c'.lbaRoot = c.lbaRoot
  refctr : ∀ x ∈ c.lbaRoot, (c'.buf x).refctr = (c.buf x).refctr
  ioErr : c'.ioErr = c.ioErr

theorem Flushed.of_nil (hnil : c.dirtyList = []) (w : ℕ → WriteRes α) : Flushed c c w :=
  ⟨by simp [hnil], by simp [hnil], fun _ _ hx => hx, rfl, fun _ _ => rfl, rfl⟩

/-- One buffer of the list is written, and then the rest of it. -/
theorem Wf.flushed_cons (h : Wf c) {rest : List ℕ} {w : ℕ → WriteRes α}
    (hlist : c.dirtyList = x :: rest) (hok : (c.flushBuf x (w x)).1 = .EOK)
    (hlist' : (c.flushBuf x (w x)).2.dirtyList = rest)
    (hrun : Flushed (c.flushBuf x (w x)).2 c' w) : Flushed c c' w := by
  have hon : x ∈ c.dirtyList := by simp [hlist]
  obtain ⟨hmem, hflag⟩ := (h.placed x).dirty_iff.mp hon
  have hlanded := (h.flushBuf_landed hmem ((h.placed x).listed hmem hflag).2 hok).1
  have hshrunk := h.flushBuf_shrunk x (w x)
  have hlba := flushBuf_lbaRoot c x (w x)
  refine ⟨fun y hy => ?_, fun y hy hdone => ?_, fun y hy hclean => ?_, hrun.lbaRoot.trans hlba,
    fun y hy => ?_, hrun.ioErr.trans (flushBuf_ioErr c x (w x))⟩
  · rw [hlist] at hy
    rcases List.mem_cons.mp hy with rfl | hy
    · exact h.flushBuf_wrote hon hok
    · exact hrun.wrote y (hlist' ▸ hy)
  · refine hrun.landed y (hlba ▸ hy) ?_
    by_cases hyx : y = x
    · exact .inr (hyx ▸ hlanded)
    obtain ⟨⟨e, hbuf⟩, hdev⟩ := h.flushBuf_elsewhere (w x) hyx
    rcases hdone with hy' | hy'
    · rw [hlist] at hy'
      exact .inl (hlist' ▸ (List.mem_cons.mp hy').resolve_left hyx)
    · refine .inr ?_
      unfold Landed
      rw [hbuf, hdev]
      exact hy'
  · refine hrun.clean y (hlba ▸ hy) ?_
    by_cases hyx : y = x
    · exact hyx ▸ hlanded.1
    · obtain ⟨⟨e, hbuf⟩, -⟩ := h.flushBuf_elsewhere (w x) hyx
      rw [hbuf]
      exact hclean
  · rw [hrun.refctr y (hlba ▸ hy)]
    exact (hshrunk.buf y (hlba ▸ hy)).2.2

theorem Wf.cacheFlushLoop_flushed (fuel : ℕ) (h : Wf c) {w : ℕ → WriteRes α}
    (hfuel : c.dirtyList.length ≤ fuel) (hok : (Cache.cacheFlushLoop fuel c w).1 = .EOK) :
    Flushed c (Cache.cacheFlushLoop fuel c w).2 w := by
  induction fuel generalizing c with
  | zero => exact .of_nil (List.eq_nil_of_length_eq_zero (Nat.le_zero.mp hfuel)) w
  | succ fuel ih =>
      unfold Cache.cacheFlushLoop at hok ⊢
      cases hlist : c.dirtyList with
      | nil => exact .of_nil hlist w
      | cons x rest =>
          rw [hlist] at hok
          dsimp only at hok ⊢
          obtain ⟨hflushed, hrest⟩ := andThen_ok hok
          rw [hrest] at hok ⊢
          obtain ⟨hmem, hflag⟩ := (h.placed x).dirty_iff.mp (by simp [hlist])
          have hlist' := (h.flushBuf_landed hmem ((h.placed x).listed hmem hflag).2 hflushed).2
          rw [hlist, List.erase_cons_head] at hlist'
          have hfuel' : (c.flushBuf x (w x)).2.dirtyList.length ≤ fuel := by
            rw [hlist']
            simpa [hlist] using hfuel
          exact h.flushed_cons hlist hflushed hlist' (ih (h.flushBuf x (w x)) hfuel' hok)

/-- A dirty buffer that nobody references and that is not on the list: its last write failed. No
    flush comes by it again, so the error latched for it is all that says so. -/
def Unlisted (c : Cache α) (x : ℕ) : Prop :=
  x ∈ c.lbaRoot ∧ (c.buf x).refctr = 0 ∧ (c.buf x).dirty = true ∧ (c.buf x).onDirtyList = false

/-- After a flush no buffer that nobody references is dirty, and what was is on the device. -/
def Settled (c c' : Cache α) : Prop :=
  ∀ x ∈ c'.lbaRoot, (c'.buf x).refctr = 0 →
    (c'.buf x).dirty = false ∧ ((c.buf x).dirty = true → c'.device x = (c'.buf x).data)

/-- **A flush that answers with no error** wrote everything, if there was nothing to write but what
    is on the list. -/
theorem Wf.cacheFlush_settled (h : Wf c) {w : ℕ → WriteRes α}
    (hlisted : c.ioErr = false → (∀ x ∈ c.dirtyList, w x = .ok) → ∀ x, ¬ Unlisted c x)
    (hok : (c.cacheFlush w).1 = .EOK) : Settled c (c.cacheFlush w).2 := by
  unfold Cache.cacheFlush at hok ⊢
  obtain ⟨hloop, hrest⟩ := andThen_ok hok
  rw [hrest] at hok ⊢
  have hflushed := h.cacheFlushLoop_flushed c.dirtyList.length (w := w) le_rfl hloop
  have hio : c.ioErr = false := by
    rw [← hflushed.ioErr]
    by_contra hn
    simp [hn] at hok
  intro x hx href
  dsimp only [setIoErr_lbaRoot, setIoErr_buf, setIoErr_device] at hx href ⊢
  have hmem : x ∈ c.lbaRoot := hflushed.lbaRoot ▸ hx
  have href' : (c.buf x).refctr = 0 := (hflushed.refctr x hmem).symm.trans href
  by_cases hdirty : (c.buf x).dirty = true
  · have hon : (c.buf x).onDirtyList = true := by
      by_contra hoff
      exact hlisted hio hflushed.wrote x ⟨hmem, href', hdirty, eq_false_of_ne_true hoff⟩
    have hlanded := hflushed.landed x hmem (.inl ((h.placed x).dirty_iff.mpr ⟨hmem, hon⟩))
    exact ⟨hlanded.1, fun _ => hlanded.2⟩
  · exact ⟨hflushed.clean x hmem (eq_false_of_ne_true hdirty), fun hn => absurd hn hdirty⟩

/-! ## Contents -/

/-- A buffer that was got and filled is valid. -/
theorem fetch_line {mem : Option α} {readOk : Bool} {w : ℕ → WriteRes α} {w' : WriteRes α}
    (hok : (andThen (c.getNoreadAt x mem w) fun c' => c'.fill x readOk w').1 = .EOK) :
    ∃ dirty, (andThen (c.getNoreadAt x mem w) fun c' => c'.fill x readOk w').2.line x =
      some ⟨((andThen (c.getNoreadAt x mem w) fun c' => c'.fill x readOk w').2.buf x).data,
        dirty⟩ := by
  obtain ⟨hgot, hrest⟩ := andThen_ok hok
  rw [hrest] at hok ⊢
  obtain ⟨hmem, -⟩ := getNoreadAt_held hgot
  revert hok
  generalize (c.getNoreadAt x mem w).2 = c' at hmem
  intro hok
  unfold Cache.fill at hok ⊢
  split
  · next hup => exact ⟨_, line_of_uptodate hmem hup⟩
  · next hup =>
      rw [if_neg hup] at hok
      cases readOk with
      | true => exact ⟨_, line_of_uptodate (by simpa using hmem) (by simp)⟩
      | false => cases hok

theorem modify_line_self (hmem : x ∈ c.lbaRoot) (d : α) : (c.modify x d).line x = some ⟨d, true⟩ := by
  rw [line_of_uptodate (by simpa [Cache.modify] using hmem) (by simp [Cache.modify])]
  simp [Cache.modify]

theorem modify_line_of_ne (hne : y ≠ x) (d : α) : (c.modify x d).line y = c.line y :=
  line_congr Iff.rfl (by simp [Cache.modify, hne]) (by simp [Cache.modify, hne])
    (by simp [Cache.modify, hne])

/-! ## Ranges -/

/-- In an increasing list, what lies up to an end is what is not above it. -/
theorem mem_takeWhile_le {l : List ℕ} (hsorted : l.Pairwise (· < ·)) (e : ℕ) :
    y ∈ l.takeWhile (· ≤ e) ↔ y ∈ l ∧ y ≤ e := by
  induction l with
  | nil => simp
  | cons a rest ih =>
      obtain ⟨hlt, hrest⟩ := List.pairwise_cons.mp hsorted
      by_cases ha : a ≤ e
      · rw [List.takeWhile_cons_of_pos (by simpa using ha), List.mem_cons, List.mem_cons, ih hrest]
        grind
      · rw [List.takeWhile_cons_of_neg (by simpa using ha), List.mem_cons]
        grind

/-- In an increasing list, what is left from an element on is what is not below it. -/
theorem mem_dropWhile_ne {l : List ℕ} (hsorted : l.Pairwise (· < ·)) (f : ℕ) :
    y ∈ l.dropWhile (· ≠ f) ↔ f ∈ l ∧ y ∈ l ∧ f ≤ y := by
  induction l with
  | nil => simp
  | cons a rest ih =>
      obtain ⟨hlt, hrest⟩ := List.pairwise_cons.mp hsorted
      by_cases ha : a = f
      · rw [List.dropWhile_cons_of_neg (by simpa using ha), List.mem_cons]
        grind
      · rw [List.dropWhile_cons_of_pos (by simpa using ha), ih hrest]
        grind

/-- **What an invalidation walks over**: the buffers of its range, if there is one of its first
    block. -/
theorem Wf.mem_walkFrom (h : Wf c) {first cnt : ℕ} (hcnt : 1 ≤ cnt) (hend : first + cnt ≤ 2 ^ 64) :
    y ∈ c.walkFrom first cnt ↔ first ∈ c.lbaRoot ∧ y ∈ c.lbaRoot ∧ InRange first cnt y := by
  have hlast : (first + cnt + 2 ^ 64 - 1) % 2 ^ 64 = first + cnt - 1 := by omega
  have hsorted : (c.lbaRoot.dropWhile (· ≠ first)).Pairwise (· < ·) :=
    h.sorted.sublist (List.dropWhile_sublist _)
  unfold walkFrom
  rw [hlast, mem_takeWhile_le hsorted, mem_dropWhile_ne h.sorted]
  unfold InRange
  constructor
  · rintro ⟨⟨hfirst, hy, hle⟩, hlt⟩
    exact ⟨hfirst, hy, hle, by omega⟩
  · rintro ⟨hfirst, hy, hle, hlt⟩
    exact ⟨⟨hfirst, hy, hle⟩, by omega⟩

/-- What an invalidation does to the buffers `l`, and that it leaves the rest alone. -/
structure Invalidated (l : List ℕ) (c c' : Cache α) : Prop where
  cleared : ∀ x ∈ l, (c'.buf x).uptodate = false ∧ (c'.buf x).dirty = false
  buf : ∀ y, y ∉ l → c'.buf y = c.buf y
  dirtyList : ∀ y, y ∉ l → (y ∈ c'.dirtyList ↔ y ∈ c.dirtyList)
  lbaRoot : c'.lbaRoot = c.lbaRoot
  lruRoot : c'.lruRoot = c.lruRoot
  device : c'.device = c.device

theorem Wf.invalidateBuf_invalidated (h : Wf c) (hmem : x ∈ c.lbaRoot) :
    Invalidated [x] c (c.invalidateBuf x) := by
  rw [invalidateBuf_eq h hmem]
  refine ⟨by simp, fun y hy => ?_, fun y hy => ?_, rfl, rfl, rfl⟩
  · have hyx : y ≠ x := by simpa using hy
    simp [hyx]
  · have hyx : y ≠ x := by simpa using hy
    exact List.mem_erase_of_ne hyx

/-- An invalidation clears the buffers it walks over, and no other. -/
theorem Wf.invalidateAll_invalidated {l : List ℕ} (h : Wf c) (hsub : ∀ x ∈ l, x ∈ c.lbaRoot) :
    Invalidated l c (l.foldl Cache.invalidateBuf c) := by
  induction l generalizing c with
  | nil => exact ⟨by simp, fun _ _ => rfl, fun _ _ => Iff.rfl, rfl, rfl, rfl⟩
  | cons x rest ih =>
      have hmem := hsub x (List.mem_cons_self ..)
      have hone := h.invalidateBuf_invalidated hmem
      have hrest := ih (h.invalidateBuf hmem) fun y hy => by
        rw [hone.lbaRoot]
        exact hsub y (List.mem_cons_of_mem x hy)
      refine ⟨fun y hy => ?_, fun y hy => ?_, fun y hy => ?_, hrest.lbaRoot.trans hone.lbaRoot,
        hrest.lruRoot.trans hone.lruRoot, hrest.device.trans hone.device⟩
      · by_cases hin : y ∈ rest
        · exact hrest.cleared y hin
        · have hyx : y = x := (List.mem_cons.mp hy).resolve_right hin
          rw [List.foldl_cons, hrest.buf y hin, hyx]
          exact hone.cleared x (List.mem_cons_self ..)
      · obtain ⟨hyx, hout⟩ := not_or.mp (mt List.mem_cons.mpr hy)
        rw [List.foldl_cons, hrest.buf y hout, hone.buf y (by simpa using hyx)]
      · obtain ⟨hyx, hout⟩ := not_or.mp (mt List.mem_cons.mpr hy)
        rw [List.foldl_cons, hrest.dirtyList y hout, hone.dirtyList y (by simpa using hyx)]

theorem Wf.invalidateLba_invalidated (h : Wf c) (first cnt : ℕ) :
    Invalidated (c.walkFrom first cnt) c (c.invalidateLba first cnt) :=
  h.invalidateAll_invalidated fun _ hy => mem_lbaRoot_of_mem_walkFrom hy

/-- Outside of what is walked over an invalidation is quiet. -/
theorem Invalidated.quietAt {l : List ℕ} (h : Invalidated l c c') (hy : y ∉ l) : QuietAt c c' y :=
  .of_buf (by rw [h.lbaRoot]) (h.buf y hy) (by rw [h.device])

end Cache

end Bcache

import OpenExt4.Lib.Transitions
import OpenExt4.Extension.Core

set_option autoImplicit false

/-! # Files that are removed while open

When the bookkeeping of `Ext4Volume` frees an inode, over all interleavings of its requests. -/

namespace Ext4Volume

open Ext4b Transitions

/-! ## What the events have to be given -/

/-- Someone has still to free the inode. -/
def Holds (s : Driver) (i : ℕ) : Prop :=
  i ∈ s.pendingRelease ∨ .notePendingRelease i ∈ s.tasks ∨ .release i ∈ s.tasks ∨
    ∃ waiting, .drain waiting ∈ s.tasks ∧ i ∈ waiting

/-- An event that does no harm. A file is not opened while it is being freed: its release is under
    way, or a removal of its last name has found it closed. What waits for its last close is not
    taken for release while it is open, by `deactivateItem`, `reclaimItem` or `unmount` either. A
    removal meets under its name the inode of its item, which is in use and has names; if it takes
    the last, the inode can be truncated, or is left to a release, which `unmount` must not have
    gathered yet. A rename replaces no open file that has no other name, and none that cannot be
    truncated; and the count of a directory that another moves into has room. When `unmount` gathers
    what waits, no removal is about to note its inode, and when it closes the volume, no release is
    under way. -/
def Safe (s : Driver) : Event → Prop
  | .openItem ino =>
      .release ino ∉ s.tasks ∧ (∀ waiting, .drain waiting ∈ s.tasks → ino ∉ waiting) ∧
        ∀ removal, s.executor = some (removal, false) → removal.item = ino →
          ¬ LastName (s.core.inodes ino)
  | .releaseIfPending ino => ino ∈ s.pendingRelease → s.openCounts ino = 0
  | .release ino _ _ =>
      (s.core.inodes ino).inUse = true → canTruncate (s.core.inodes ino) = true
  | .drain _ ino _ _ =>
      (s.core.inodes ino).inUse = true → canTruncate (s.core.inodes ino) = true
  | .unlink stored _ _ =>
      ∀ removal deferRelease, s.executor = some (removal, deferRelease) →
        ∀ child, findEntry s.core (s.core.inodes removal.directory) stored = some child →
          child = removal.item ∧ rootIno ≤ child ∧ (s.core.inodes child).inUse = true ∧
            (s.core.inodes child).linksCnt ≠ 0 ∧
            (LastName (s.core.inodes child) →
              (deferRelease = false → canTruncate (s.core.inodes child) = true) ∧
              (deferRelease = true → ∀ waiting, .drain waiting ∉ s.tasks))
  | .rename move storedSource storedDestination _ _ =>
      (∀ child, findEntry s.core (s.core.inodes move.sourceDirectory) storedSource = some child →
        (s.core.inodes child).type = .dir →
          (s.core.inodes move.destinationDirectory).linksCnt ≠ 0 ∧
            (s.core.inodes move.destinationDirectory).linksCnt + 1 < 2 ^ 16) ∧
      ∀ victim,
        findEntry s.core (s.core.inodes move.destinationDirectory) storedDestination =
          some victim →
        findEntry s.core (s.core.inodes move.sourceDirectory) storedSource ≠ some victim →
          victim ≠ move.destinationDirectory ∧ (s.core.inodes victim).inUse = true ∧
            (s.core.inodes victim).linksCnt ≠ 0 ∧
            (LastName (s.core.inodes victim) →
              canTruncate (s.core.inodes victim) = true ∧ s.openCounts victim = 0)
  | .releaseAllPending =>
      (∀ ino ∈ s.pendingRelease, s.openCounts ino = 0) ∧
        ∀ ino, .notePendingRelease ino ∉ s.tasks
  | .closeVolume =>
      (∀ ino, .release ino ∉ s.tasks) ∧ ∀ waiting, .drain waiting ∈ s.tasks → waiting = ∅
  | _ => True

/-- A step that counts how often each inode has been freed. -/
def countedStep (x : Driver × (ℕ → ℕ)) (e : Event) : Option (Driver × (ℕ → ℕ)) :=
  (step x.1 e).map fun s => (s, fun i =>
    x.2 i + if (x.1.core.inodes i).inUse = true ∧ (s.core.inodes i).inUse = false then 1 else 0)

/-- A mounted volume without requests. -/
structure Driver.Started (s : Driver) : Prop where
  closed : s.closed = false
  openCounts : ∀ i, s.openCounts i = 0
  pendingRelease : s.pendingRelease = ∅
  tasks : s.tasks = []
  executor : s.executor = none

/-! ## The invariant -/

/-- What holds between the volume as it was mounted, the driver, and the number of times each inode
    has been freed. -/
structure Inv (v₀ : Volume) (s : Driver) (freed : ℕ → ℕ) : Prop where
  used : ∀ i, (s.core.inodes i).inUse = true → (v₀.inodes i).inUse = true
  counted : ∀ i, freed i =
    if (v₀.inodes i).inUse = true ∧ (s.core.inodes i).inUse = false then 1 else 0
  held : ∀ i, (s.core.inodes i).inUse = true → (s.core.inodes i).linksCnt = 0 →
    (v₀.inodes i).linksCnt = 0 ∨ Holds s i
  unlinked : ∀ i, Holds s i → rootIno ≤ i ∧ (s.core.inodes i).linksCnt = 0
  shut : ∀ i, .release i ∈ s.tasks → s.openCounts i = 0
  shutDrain : ∀ waiting, .drain waiting ∈ s.tasks → ∀ i ∈ waiting, s.openCounts i = 0
  shutExecutor : ∀ removal, s.executor = some (removal, false) →
    LastName (s.core.inodes removal.item) → s.openCounts removal.item = 0
  noPutBack : ∀ i, .putBack i ∉ s.tasks
  drained : ((∃ waiting, .drain waiting ∈ s.tasks) ∨ s.closed = true) →
    s.pendingRelease = ∅ ∧ ∀ i, .notePendingRelease i ∉ s.tasks
  ended : s.closed = true → s.executor = none ∧ ∀ i, ¬ Holds s i

section Tasks

variable {v₀ : Volume} {s : Driver} {freed : ℕ → ℕ}

/-- The task has nothing to free, and nothing to note. -/
def Task.Idle : Task → Prop
  | .releaseIfPending _ => True
  | .remove _ => True
  | .rename _ => True
  | .releaseAllPending => True
  | _ => False

theorem mem_goOn {t t' : Task} {ts : List Task} (h : t' ∈ (s.goOn t ts).tasks) :
    t' ∈ ts ∨ t' ∈ s.tasks :=
  (List.mem_append.mp h).imp_right List.mem_of_mem_erase

theorem mem_goOn_of_ne {t t' : Task} {ts : List Task} (h : t' ∈ s.tasks) (hne : t' ≠ t) :
    t' ∈ (s.goOn t ts).tasks :=
  List.mem_append_right _ ((List.mem_erase_of_ne hne).mpr h)

theorem mem_goOn_iff {t t' : Task} {ts : List Task} (hts : t' ∉ ts) (hne : t' ≠ t) :
    t' ∈ (s.goOn t ts).tasks ↔ t' ∈ s.tasks :=
  ⟨fun h => (mem_goOn h).resolve_left hts, fun h => mem_goOn_of_ne h hne⟩

theorem holds_congr {t : Driver} (hpending : t.pendingRelease = s.pendingRelease)
    (hts : ∀ t' : Task, ¬ t'.Idle → (t' ∈ t.tasks ↔ t' ∈ s.tasks)) (i : ℕ) :
    Holds t i ↔ Holds s i := by
  unfold Holds
  rw [hpending, hts (.notePendingRelease i) id, hts (.release i) id]
  simp only [fun waiting => hts (.drain waiting) id]

/-- Idle tasks come and go without notice. -/
theorem Inv.tasks (h : Inv v₀ s freed) {ts : List Task}
    (hts : ∀ t : Task, ¬ t.Idle → (t ∈ ts ↔ t ∈ s.tasks)) :
    Inv v₀ { s with tasks := ts } freed := by
  have hnote : ∀ i, .notePendingRelease i ∈ ts ↔ .notePendingRelease i ∈ s.tasks :=
    fun i => hts _ id
  have hrelease : ∀ i, .release i ∈ ts ↔ .release i ∈ s.tasks := fun i => hts _ id
  have hdrain : ∀ waiting, .drain waiting ∈ ts ↔ .drain waiting ∈ s.tasks := fun _ => hts _ id
  have hputBack : ∀ i, .putBack i ∈ ts ↔ .putBack i ∈ s.tasks := fun i => hts _ id
  have hholds := @holds_congr s { s with tasks := ts } rfl hts
  constructor
  · exact h.used
  · exact h.counted
  · exact fun i huse hzero => (h.held i huse hzero).imp_right (hholds i).mpr
  · exact fun i hi => h.unlinked i ((hholds i).mp hi)
  · exact fun i hi => h.shut i ((hrelease i).mp hi)
  · exact fun waiting hw => h.shutDrain waiting ((hdrain waiting).mp hw)
  · exact h.shutExecutor
  · exact fun i hi => h.noPutBack i ((hputBack i).mp hi)
  · intro hor
    obtain ⟨hempty, hnone⟩ := h.drained (hor.imp_left fun ⟨waiting, hw⟩ =>
      ⟨waiting, (hdrain waiting).mp hw⟩)
    exact ⟨hempty, fun i hi => hnone i ((hnote i).mp hi)⟩
  · intro hclosed
    exact ⟨(h.ended hclosed).1, fun i hi => (h.ended hclosed).2 i ((hholds i).mp hi)⟩

theorem Inv.cons (h : Inv v₀ s freed) {t : Task} (ht : t.Idle) :
    Inv v₀ { s with tasks := t :: s.tasks } freed := by
  refine h.tasks fun t' ht' => ?_
  rw [List.mem_cons]
  exact ⟨fun hor => hor.resolve_left fun heq => ht' (heq ▸ ht), .inr⟩

theorem Inv.goOn (h : Inv v₀ s freed) {t : Task} (ht : t.Idle) :
    Inv v₀ (s.goOn t []) freed :=
  h.tasks fun _ ht' => mem_goOn_iff List.not_mem_nil fun heq => ht' (heq ▸ ht)

end Tasks

/-! ## Steps -/

/-- A step keeps the invariant, with the inodes counted that it frees, and frees none that is
    open. -/
def Kept (v₀ : Volume) (s : Driver) (freed : ℕ → ℕ) (t : Driver) : Prop :=
  Inv v₀ t (fun i => freed i +
      if (s.core.inodes i).inUse = true ∧ (t.core.inodes i).inUse = false then 1 else 0) ∧
    ∀ i, (s.core.inodes i).inUse = true → (t.core.inodes i).inUse = false → s.openCounts i = 0

section Steps

variable {v₀ : Volume} {s t : Driver} {freed : ℕ → ℕ}

/-- The core is as it was. -/
theorem kept_of_core (h : Inv v₀ t freed) (hcore : t.core = s.core) : Kept v₀ s freed t := by
  have hnone : ∀ i, ¬ ((s.core.inodes i).inUse = true ∧ (t.core.inodes i).inUse = false) :=
    fun i hn => by rw [hcore, hn.1] at hn; exact absurd hn.2.symm Bool.false_ne_true
  have hcount : (fun i => freed i +
      if (s.core.inodes i).inUse = true ∧ (t.core.inodes i).inUse = false then 1 else 0) =
        freed := by
    funext i
    rw [if_neg (hnone i), Nat.add_zero]
  unfold Kept
  rw [hcount]
  exact ⟨h, fun i hs ht => absurd ⟨hs, ht⟩ (hnone i)⟩

/-- A job of the executor that concerns inode `c`: what it does to the core, and to who has still to
    free what. -/
structure JobOn (v₀ : Volume) (s t : Driver) (c : ℕ) : Prop where
  off : SameUseOff s.core t.core c
  used : (t.core.inodes c).inUse = true → (s.core.inodes c).inUse = true
  shut : (s.core.inodes c).inUse = true → (t.core.inodes c).inUse = false → s.openCounts c = 0
  openCounts : t.openCounts = s.openCounts
  executor : t.executor = none
  closed : t.closed = false
  holds : ∀ i, i ≠ c → (Holds t i ↔ Holds s i)
  unlinked : Holds t c → rootIno ≤ c ∧ (t.core.inodes c).linksCnt = 0
  held : (t.core.inodes c).inUse = true → (t.core.inodes c).linksCnt = 0 →
    (v₀.inodes c).linksCnt = 0 ∨ Holds t c
  release : ∀ i, .release i ∈ t.tasks → .release i ∈ s.tasks
  drain : ∀ waiting, .drain waiting ∈ t.tasks → ∃ waiting', .drain waiting' ∈ s.tasks ∧
    waiting ⊆ waiting'
  putBack : ∀ i, .putBack i ∉ t.tasks
  drained : (∃ waiting, .drain waiting ∈ t.tasks) →
    t.pendingRelease = ∅ ∧ ∀ i, .notePendingRelease i ∉ t.tasks

theorem JobOn.kept {c : ℕ} (h : Inv v₀ s freed) (hjob : JobOn v₀ s t c) : Kept v₀ s freed t := by
  have hused : ∀ i, (t.core.inodes i).inUse = true → (s.core.inodes i).inUse = true := by
    intro i hi
    by_cases hic : i = c
    · exact hic ▸ hjob.used (hic ▸ hi)
    · exact (hjob.off i hic).1 ▸ hi
  refine ⟨⟨fun i hi => h.used i (hused i hi), fun i => ?_, fun i huse hzero => ?_, fun i hi => ?_,
    fun i hi => ?_, fun waiting hw i hi => ?_, fun removal hn => ?_, hjob.putBack, fun hor => ?_,
    fun hn => ?_⟩, fun i hs ht => ?_⟩
  · -- an inode is freed once, since none comes into use
    rw [h.counted i]
    cases ht : (t.core.inodes i).inUse with
    | true => rw [if_neg (by simp [hused i ht]), if_neg (by simp), if_neg (by simp)]
    | false =>
        cases hs : (s.core.inodes i).inUse with
        | true => simp [h.used i hs]
        | false => simp
  · by_cases hic : i = c
    · subst hic
      exact hjob.held huse hzero
    · have hsame := hjob.off i hic
      exact (h.held i (hsame.1.symm.trans huse) (hsame.2.mp hzero)).imp_right (hjob.holds i hic).mpr
  · by_cases hic : i = c
    · subst hic
      exact hjob.unlinked hi
    · obtain ⟨hroot, hzero⟩ := h.unlinked i ((hjob.holds i hic).mp hi)
      exact ⟨hroot, (hjob.off i hic).2.mpr hzero⟩
  · rw [hjob.openCounts]
    exact h.shut i (hjob.release i hi)
  · obtain ⟨waiting', hw', hsub⟩ := hjob.drain waiting hw
    rw [hjob.openCounts]
    exact h.shutDrain waiting' hw' i (hsub hi)
  · rw [hjob.executor] at hn
    cases hn
  · refine hjob.drained (hor.resolve_right fun hn => ?_)
    rw [hjob.closed] at hn
    cases hn
  · rw [hjob.closed] at hn
    cases hn
  · by_cases hic : i = c
    · subst hic
      exact hjob.shut hs ht
    · rw [(hjob.off i hic).1, hs] at ht
      cases ht

/-- What is counted as open changes, but for nothing that is being freed. -/
theorem Inv.opens (h : Inv v₀ s freed) {f : ℕ → ℕ}
    (hrelease : ∀ i, .release i ∈ s.tasks → s.openCounts i = 0 → f i = 0)
    (hdrain : ∀ waiting, .drain waiting ∈ s.tasks → ∀ i ∈ waiting, s.openCounts i = 0 → f i = 0)
    (hexecutor : ∀ removal, s.executor = some (removal, false) →
      LastName (s.core.inodes removal.item) → s.openCounts removal.item = 0 →
        f removal.item = 0) : Inv v₀ { s with openCounts := f } freed where
  used := h.used
  counted := h.counted
  held := h.held
  unlinked := h.unlinked
  shut i hi := hrelease i hi (h.shut i hi)
  shutDrain waiting hw i hi := hdrain waiting hw i hi (h.shutDrain waiting hw i hi)
  shutExecutor removal hr hlast := hexecutor removal hr hlast (h.shutExecutor removal hr hlast)
  noPutBack := h.noPutBack
  drained := h.drained
  ended := h.ended

theorem kept_openItem (h : Inv v₀ s freed) {ino : ℕ} (hsafe : Safe s (.openItem ino)) :
    Inv v₀ { s with
      openCounts := Function.update s.openCounts ino (s.openCounts ino + 1) } freed := by
  obtain ⟨hrelease, hdrain, hexecutor⟩ := hsafe
  refine h.opens (fun i hi hzero => ?_) (fun waiting hw i hi hzero => ?_)
    fun removal hr hlast hzero => ?_
  · have hne : i ≠ ino := fun heq => hrelease (heq ▸ hi)
    rw [Function.update_of_ne hne, hzero]
  · have hne : i ≠ ino := fun heq => hdrain waiting hw (heq ▸ hi)
    rw [Function.update_of_ne hne, hzero]
  · have hne : removal.item ≠ ino := fun heq => hexecutor removal hr heq (heq ▸ hlast)
    rw [Function.update_of_ne hne, hzero]

theorem kept_closeItem (h : Inv v₀ s freed) (ino : ℕ) :
    Inv v₀ { s with
      openCounts := Function.update s.openCounts ino (s.openCounts ino - 1) } freed := by
  have hzero : ∀ i, s.openCounts i = 0 →
      Function.update s.openCounts ino (s.openCounts ino - 1) i = 0 := by
    intro i hi
    by_cases hio : i = ino
    · subst hio
      rw [Function.update_self, hi]
    · rw [Function.update_of_ne hio, hi]
  exact h.opens (fun i _ => hzero i) (fun _ _ i _ => hzero i) fun removal _ _ => hzero removal.item

theorem kept_releaseIfPending (h : Inv v₀ s freed) {ino : ℕ} (hpending : ino ∈ s.pendingRelease)
    (hshut : s.openCounts ino = 0) :
    Inv v₀ { s.goOn (.releaseIfPending ino) [.release ino] with
      pendingRelease := s.pendingRelease.erase ino } freed := by
  have hopen : s.closed ≠ true := fun hn => (h.ended hn).2 ino (.inl hpending)
  have hnoDrain : ∀ waiting, .drain waiting ∉ s.tasks := fun waiting hw => by
    rw [(h.drained (.inl ⟨waiting, hw⟩)).1] at hpending
    exact Finset.notMem_empty ino hpending
  have hmem : ∀ t : Task, ¬ t.Idle →
      (t ∈ (s.goOn (.releaseIfPending ino) [.release ino]).tasks ↔
        t = .release ino ∨ t ∈ s.tasks) := by
    intro t ht
    have hne : t ≠ .releaseIfPending ino := fun heq => ht (heq ▸ trivial)
    exact List.mem_append.trans (or_congr List.mem_singleton (List.mem_erase_of_ne hne))
  have hdrain : ∀ waiting, .drain waiting ∉
      (s.goOn (.releaseIfPending ino) [.release ino]).tasks := fun waiting hw =>
    ((hmem _ id).mp hw).elim nofun (hnoDrain waiting)
  have hholds : ∀ i, Holds { s.goOn (.releaseIfPending ino) [.release ino] with
      pendingRelease := s.pendingRelease.erase ino } i ↔ Holds s i := by
    intro i
    by_cases hi : i = ino
    · subst hi
      exact iff_of_true (.inr (.inr (.inl ((hmem _ id).mpr (.inl rfl))))) (.inl hpending)
    · unfold Holds
      dsimp only
      rw [Finset.mem_erase, hmem (.notePendingRelease i) id, hmem (.release i) id]
      simp only [hdrain, hnoDrain, Task.release.injEq, reduceCtorEq, hi, false_or, not_false_eq_true,
        ne_eq, true_and]
  constructor
  · exact h.used
  · exact h.counted
  · exact fun i huse hzero => (h.held i huse hzero).imp_right (hholds i).mpr
  · exact fun i hi => h.unlinked i ((hholds i).mp hi)
  · intro i hi
    rcases (hmem _ id).mp hi with heq | hold
    · exact Task.release.inj heq ▸ hshut
    · exact h.shut i hold
  · exact fun waiting hw => absurd hw (hdrain waiting)
  · exact h.shutExecutor
  · exact fun i hi => ((hmem _ id).mp hi).elim nofun (h.noPutBack i)
  · exact fun hor => hor.elim (fun ⟨waiting, hw⟩ => absurd hw (hdrain waiting)) (absurd · hopen)
  · exact fun hn => absurd hn hopen

theorem kept_notePendingRelease (h : Inv v₀ s freed) {ino : ℕ}
    (hnote : .notePendingRelease ino ∈ s.tasks) :
    Inv v₀ { s.goOn (.notePendingRelease ino) [] with
      pendingRelease := insert ino s.pendingRelease } freed := by
  have hnoDrain : ¬ ((∃ waiting, .drain waiting ∈ s.tasks) ∨ s.closed = true) := fun hn =>
    (h.drained hn).2 ino hnote
  rw [not_or] at hnoDrain
  have hold : ∀ t : Task, t ∈ (s.goOn (.notePendingRelease ino) []).tasks → t ∈ s.tasks :=
    fun t ht => (mem_goOn ht).resolve_left List.not_mem_nil
  have hholds : ∀ i, Holds { s.goOn (.notePendingRelease ino) [] with
      pendingRelease := insert ino s.pendingRelease } i ↔ Holds s i := by
    intro i
    by_cases hi : i = ino
    · subst hi
      exact iff_of_true (.inl (Finset.mem_insert_self _ _)) (.inr (.inl hnote))
    · have hmem : ∀ t : Task, t ≠ .notePendingRelease ino →
          (t ∈ (s.goOn (.notePendingRelease ino) []).tasks ↔ t ∈ s.tasks) :=
        fun t => mem_goOn_iff List.not_mem_nil
      unfold Holds
      dsimp only
      rw [Finset.mem_insert, or_iff_right hi,
        hmem (.notePendingRelease i) fun heq => hi (Task.notePendingRelease.inj heq),
        hmem (.release i) nofun]
      simp only [fun waiting => hmem (.drain waiting) nofun]
  constructor
  · exact h.used
  · exact h.counted
  · exact fun i huse hzero => (h.held i huse hzero).imp_right (hholds i).mpr
  · exact fun i hi => h.unlinked i ((hholds i).mp hi)
  · exact fun i hi => h.shut i (hold _ hi)
  · exact fun waiting hw => h.shutDrain waiting (hold _ hw)
  · exact h.shutExecutor
  · exact fun i hi => h.noPutBack i (hold _ hi)
  · exact fun hor => hor.elim (fun ⟨waiting, hw⟩ => absurd ⟨waiting, hold _ hw⟩ hnoDrain.1)
      (absurd · hnoDrain.2)
  · exact fun hn => absurd hn hnoDrain.2

theorem kept_releaseAllPending (h : Inv v₀ s freed) (hsafe : Safe s .releaseAllPending) :
    Inv v₀ { s.goOn .releaseAllPending [.drain s.pendingRelease] with
      pendingRelease := ∅ } freed := by
  obtain ⟨hshut, hnoNote⟩ := hsafe
  have hmem : ∀ t : Task, ¬ t.Idle →
      (t ∈ (s.goOn .releaseAllPending [.drain s.pendingRelease]).tasks ↔
        t = .drain s.pendingRelease ∨ t ∈ s.tasks) := by
    intro t ht
    have hne : t ≠ .releaseAllPending := fun heq => ht (heq ▸ trivial)
    exact List.mem_append.trans (or_congr List.mem_singleton (List.mem_erase_of_ne hne))
  have hholds : ∀ i, Holds { s.goOn .releaseAllPending [.drain s.pendingRelease] with
      pendingRelease := ∅ } i ↔ Holds s i := by
    intro i
    unfold Holds
    dsimp only
    rw [hmem (.notePendingRelease i) id, hmem (.release i) id]
    simp only [fun waiting => hmem (.drain waiting) id, Finset.notMem_empty, reduceCtorEq, false_or,
      Task.drain.injEq]
    constructor
    · rintro (hnote | hrelease | ⟨waiting, rfl | hw, hi⟩)
      · exact .inr (.inl hnote)
      · exact .inr (.inr (.inl hrelease))
      · exact .inl hi
      · exact .inr (.inr (.inr ⟨waiting, hw, hi⟩))
    · rintro (hpending | hnote | hrelease | ⟨waiting, hw, hi⟩)
      · exact .inr (.inr ⟨s.pendingRelease, .inl rfl, hpending⟩)
      · exact .inl hnote
      · exact .inr (.inl hrelease)
      · exact .inr (.inr ⟨waiting, .inr hw, hi⟩)
  constructor
  · exact h.used
  · exact h.counted
  · exact fun i huse hzero => (h.held i huse hzero).imp_right (hholds i).mpr
  · exact fun i hi => h.unlinked i ((hholds i).mp hi)
  · exact fun i hi => h.shut i (((hmem _ id).mp hi).resolve_left nofun)
  · intro waiting hw i hi
    rcases (hmem _ id).mp hw with heq | hold
    · exact hshut i (Task.drain.inj heq ▸ hi)
    · exact h.shutDrain waiting hold i hi
  · exact h.shutExecutor
  · exact fun i hi => ((hmem _ id).mp hi).elim nofun (h.noPutBack i)
  · exact fun _ => ⟨rfl, fun i hi => ((hmem _ id).mp hi).elim nofun (hnoNote i)⟩
  · exact fun hn => ⟨(h.ended hn).1, fun i hi => (h.ended hn).2 i ((hholds i).mp hi)⟩

theorem kept_closeVolume (h : Inv v₀ s freed) (hsafe : Safe s .closeVolume)
    (hdrain : .drain ∅ ∈ s.tasks) (hidle : s.executor = none) :
    Inv v₀ { s.goOn (.drain ∅) [] with closed := true } freed := by
  obtain ⟨hnoRelease, hempty⟩ := hsafe
  obtain ⟨hpending, hnoNote⟩ := h.drained (.inl ⟨∅, hdrain⟩)
  have hold : ∀ t : Task, t ∈ (s.goOn (.drain ∅) []).tasks → t ∈ s.tasks :=
    fun t ht => (mem_goOn ht).resolve_left List.not_mem_nil
  -- nobody has anything to free any more
  have hnone : ∀ i, ¬ Holds s i := by
    rintro i (hi | hi | hi | ⟨waiting, hw, hi⟩)
    · rw [hpending] at hi
      exact Finset.notMem_empty i hi
    · exact hnoNote i hi
    · exact hnoRelease i hi
    · rw [hempty waiting hw] at hi
      exact Finset.notMem_empty i hi
  have hnone' : ∀ i, ¬ Holds { s.goOn (.drain ∅) [] with closed := true } i := by
    rintro i (hi | hi | hi | ⟨waiting, hw, hi⟩)
    · exact hnone i (.inl hi)
    · exact hnone i (.inr (.inl (hold _ hi)))
    · exact hnone i (.inr (.inr (.inl (hold _ hi))))
    · exact hnone i (.inr (.inr (.inr ⟨waiting, hold _ hw, hi⟩)))
  constructor
  · exact h.used
  · exact h.counted
  · exact fun i huse hzero => (h.held i huse hzero).imp_right fun hi => absurd hi (hnone i)
  · exact fun i hi => absurd hi (hnone' i)
  · exact fun i hi => h.shut i (hold _ hi)
  · exact fun waiting hw => h.shutDrain waiting (hold _ hw)
  · exact h.shutExecutor
  · exact fun i hi => h.noPutBack i (hold _ hi)
  · exact fun _ => ⟨hpending, fun i hi => hnoNote i (hold _ hi)⟩
  · exact fun _ => ⟨hidle, hnone'⟩

/-! ## Jobs of the executor -/

/-- A release that is due succeeds. -/
theorem releaseJob_ok (h : Inv v₀ s freed) {ino : ℕ} (now : ℕ) (kept : Bool) (hholds : Holds s ino)
    (htruncate : (s.core.inodes ino).inUse = true → canTruncate (s.core.inodes ino) = true) :
    ∃ w, s.releaseJob ino now kept = (true, { s with core := w }) ∧ s.closed = false ∧
      SameUseOff s.core w ino ∧ (w.inodes ino).inUse = false ∧ (w.inodes ino).linksCnt = 0 := by
  have hopen : s.closed = false := eq_false_of_ne_true fun hn => (h.ended hn).2 ino hholds
  obtain ⟨hroot, hlinks⟩ := h.unlinked ino hholds
  obtain ⟨w, hok, hoff, hgone, hzero⟩ := @releaseInode_ok s.core now ino hroot hlinks htruncate
  refine ⟨w, ?_, hopen, hoff, hgone, hzero⟩
  unfold Driver.releaseJob
  rw [hopen, hok]
  rfl

theorem kept_release (h : Inv v₀ s freed) {ino : ℕ} (now : ℕ) (kept : Bool)
    (hrelease : .release ino ∈ s.tasks) (hidle : s.executor = none)
    (htruncate : (s.core.inodes ino).inUse = true → canTruncate (s.core.inodes ino) = true) :
    ∃ w, s.releaseJob ino now kept = (true, { s with core := w }) ∧
      Kept v₀ s freed (({ s with core := w } : Driver).goOn (.release ino) []) := by
  obtain ⟨w, hjob, hopen, hoff, hgone, hzero⟩ := releaseJob_ok h now kept
    (.inr (.inr (.inl hrelease))) htruncate
  refine ⟨w, hjob, JobOn.kept (c := ino) h ?_⟩
  have hold : ∀ t : Task, t ∈ (s.goOn (.release ino) []).tasks → t ∈ s.tasks :=
    fun t ht => (mem_goOn ht).resolve_left List.not_mem_nil
  have hmem : ∀ t : Task, t ≠ .release ino → (t ∈ (s.goOn (.release ino) []).tasks ↔ t ∈ s.tasks) :=
    fun t => mem_goOn_iff List.not_mem_nil
  constructor
  · exact hoff
  · exact fun hused => absurd (hgone.symm.trans hused) Bool.false_ne_true
  · exact fun _ _ => h.shut ino hrelease
  · rfl
  · exact hidle
  · exact hopen
  · intro i hi
    change (i ∈ s.pendingRelease ∨ _ ∈ (s.goOn (.release ino) []).tasks ∨
      _ ∈ (s.goOn (.release ino) []).tasks ∨
        ∃ waiting, _ ∈ (s.goOn (.release ino) []).tasks ∧ _) ↔ Holds s i
    rw [hmem (.notePendingRelease i) nofun, hmem (.release i) fun heq => hi (Task.release.inj heq)]
    simp only [fun waiting => hmem (.drain waiting) nofun]
    rfl
  · exact fun _ => ⟨(h.unlinked ino (.inr (.inr (.inl hrelease)))).1, hzero⟩
  · exact fun hused => absurd (hgone.symm.trans hused) Bool.false_ne_true
  · exact fun i hi => hold _ hi
  · exact fun waiting hw => ⟨waiting, hold _ hw, Finset.Subset.refl _⟩
  · exact fun i hi => h.noPutBack i (hold _ hi)
  · rintro ⟨waiting, hw⟩
    obtain ⟨hempty, hnone⟩ := h.drained (.inl ⟨waiting, hold _ hw⟩)
    exact ⟨hempty, fun i hi => hnone i (hold _ hi)⟩

theorem kept_drain (h : Inv v₀ s freed) {waiting : Finset ℕ} {ino : ℕ} (now : ℕ) (kept : Bool)
    (hdrain : .drain waiting ∈ s.tasks) (hino : ino ∈ waiting) (hidle : s.executor = none)
    (htruncate : (s.core.inodes ino).inUse = true → canTruncate (s.core.inodes ino) = true) :
    ∃ w, s.releaseJob ino now kept = (true, { s with core := w }) ∧
      Kept v₀ s freed
        (({ s with core := w } : Driver).goOn (.drain waiting) [.drain (waiting.erase ino)]) := by
  have hholds : Holds s ino := .inr (.inr (.inr ⟨waiting, hdrain, hino⟩))
  obtain ⟨w, hjob, hopen, hoff, hgone, hzero⟩ := releaseJob_ok h now kept
    hholds htruncate
  refine ⟨w, hjob, JobOn.kept (c := ino) h ?_⟩
  have hmem : ∀ t : Task, (∀ waiting, t ≠ .drain waiting) →
      (t ∈ (s.goOn (.drain waiting) [.drain (waiting.erase ino)]).tasks ↔ t ∈ s.tasks) :=
    fun t ht => mem_goOn_iff (fun hn => ht _ (List.mem_singleton.mp hn)) (ht _)
  have hsub : ∀ waiting', .drain waiting' ∈
      (s.goOn (.drain waiting) [.drain (waiting.erase ino)]).tasks →
        ∃ waiting₀, .drain waiting₀ ∈ s.tasks ∧ waiting' ⊆ waiting₀ := by
    intro waiting' hw
    rcases mem_goOn hw with hnew | hold
    · rw [Task.drain.inj (List.mem_singleton.mp hnew)]
      exact ⟨waiting, hdrain, Finset.erase_subset _ _⟩
    · exact ⟨waiting', hold, Finset.Subset.refl _⟩
  constructor
  · exact hoff
  · exact fun hused => absurd (hgone.symm.trans hused) Bool.false_ne_true
  · exact fun _ _ => h.shutDrain waiting hdrain ino hino
  · rfl
  · exact hidle
  · exact hopen
  · intro i hi
    change (i ∈ s.pendingRelease ∨
      _ ∈ (s.goOn (.drain waiting) [.drain (waiting.erase ino)]).tasks ∨
        _ ∈ (s.goOn (.drain waiting) [.drain (waiting.erase ino)]).tasks ∨
          ∃ waiting', _ ∈ (s.goOn (.drain waiting) [.drain (waiting.erase ino)]).tasks ∧ _) ↔ _
    rw [hmem (.notePendingRelease i) fun _ => nofun, hmem (.release i) fun _ => nofun]
    refine or_congr_right (or_congr_right (or_congr_right ⟨?_, ?_⟩))
    · rintro ⟨waiting', hw, hiw⟩
      obtain ⟨waiting₀, hw₀, hss⟩ := hsub waiting' hw
      exact ⟨waiting₀, hw₀, hss hiw⟩
    · rintro ⟨waiting', hw, hiw⟩
      by_cases heq : waiting' = waiting
      · subst heq
        exact ⟨waiting'.erase ino, List.mem_cons_self, Finset.mem_erase.mpr ⟨hi, hiw⟩⟩
      · exact ⟨waiting', mem_goOn_of_ne hw fun hn => heq (Task.drain.inj hn), hiw⟩
  · exact fun _ => ⟨(h.unlinked ino hholds).1, hzero⟩
  · exact fun hused => absurd (hgone.symm.trans hused) Bool.false_ne_true
  · exact fun i hi => (hmem (.release i) fun _ => nofun).mp hi
  · exact hsub
  · exact fun i hi => h.noPutBack i ((hmem (.putBack i) fun _ => nofun).mp hi)
  · intro _
    obtain ⟨hempty, hnone⟩ := h.drained (.inl ⟨waiting, hdrain⟩)
    exact ⟨hempty, fun i hi => hnone i ((hmem (.notePendingRelease i) fun _ => nofun).mp hi)⟩

/-- The executor is done with a removal that changed nothing. -/
theorem Inv.clearExecutor (h : Inv v₀ s freed) : Inv v₀ { s with executor := none } freed where
  used := h.used
  counted := h.counted
  held := h.held
  unlinked := h.unlinked
  shut := h.shut
  shutDrain := h.shutDrain
  shutExecutor _ hn := nomatch hn
  noPutBack := h.noPutBack
  drained := h.drained
  ended hn := ⟨rfl, (h.ended hn).2⟩

theorem kept_remove (h : Inv v₀ s freed) {removal : Removal} (hopen : s.closed ≠ true) :
    Inv v₀ { s.goOn (.remove removal) [] with
      executor := some (removal, s.isOpen removal.item) } freed := by
  have hinv : Inv v₀ (s.goOn (.remove removal) []) freed := h.goOn trivial
  constructor
  · exact hinv.used
  · exact hinv.counted
  · exact hinv.held
  · exact hinv.unlinked
  · exact hinv.shut
  · exact hinv.shutDrain
  · intro removal' heq _
    obtain ⟨rfl, hisOpen⟩ := Prod.mk.inj (Option.some.inj heq)
    exact Nat.eq_zero_of_not_pos (of_decide_eq_false hisOpen)
  · exact hinv.noPutBack
  · exact hinv.drained
  · exact fun hn => absurd hn hopen

theorem settle_error (v : Volume) (kept : Bool) (e : Errno) :
    settle v kept (.error (e, v)) = v := ite_self _

theorem settle_cases (v : Volume) (kept : Bool) (r : Result Volume) :
    settle v kept r = v ∨ settle v kept r = r.volume := by
  cases r with
  | ok w => exact .inr rfl
  | error ew =>
      cases kept with
      | true => exact .inr rfl
      | false => exact .inl rfl

theorem kept_unlink (h : Inv v₀ s freed) {stored : Name} {env : Env} {kept : Bool}
    (hsafe : Safe s (.unlink stored env kept)) (hstep : step s (.unlink stored env kept) = some t) :
    Kept v₀ s freed t := by
  unfold step at hstep
  dsimp only at hstep
  split at hstep
  · cases hstep
  next removal deferRelease hexecutor =>
  have hopen : s.closed = false := eq_false_of_ne_true fun hn =>
    Option.some_ne_none _ (hexecutor.symm.trans (h.ended hn).1)
  have hsafe' := hsafe removal deferRelease hexecutor
  rcases unlinkEx_effect env deferRelease fun child hfound =>
      ⟨(hsafe' child hfound).2.2.1, (hsafe' child hfound).2.2.2.1, fun hlast hnow =>
        ((hsafe' child hfound).2.2.2.2 hlast).1 hnow⟩ with
    ⟨e, herror⟩ | ⟨child, orphaned, w, hfound, hok, hoff, hor⟩
  · rw [herror] at hstep
    dsimp only at hstep
    rw [settle_error] at hstep
    exact Option.some.inj hstep ▸ kept_of_core h.clearExecutor rfl
  obtain ⟨hitem, hroot, hused, hlinks, hlast'⟩ := hsafe' child hfound
  rw [hok] at hstep
  dsimp only at hstep
  have hnotHeld : ¬ Holds s child := fun hn => hlinks (h.unlinked child hn).2
  rcases hor with ⟨rfl, hsame⟩ | ⟨hlast, rfl, huse, hzero⟩
  · -- a name less
    rw [if_neg Bool.false_ne_true] at hstep
    rw [← Option.some.inj hstep]
    refine JobOn.kept (c := child) h ⟨hoff, fun hu => hsame.1 ▸ hu, fun hs ht => ?_, rfl, rfl, hopen,
      fun _ _ => Iff.rfl, fun hn => absurd hn hnotHeld, fun _ hz => absurd (hsame.2.mp hz) hlinks,
      fun _ => id, fun waiting hw => ⟨waiting, hw, Finset.Subset.refl _⟩, h.noPutBack,
      fun hw => h.drained (.inl hw)⟩
    rw [hsame.1, hs] at ht
    cases ht
  · cases orphaned with
    | false =>
        -- the last name of a closed file: it is freed
        rw [if_neg Bool.false_ne_true] at hstep
        rw [← Option.some.inj hstep]
        refine JobOn.kept (c := child) h ⟨hoff, fun hu => absurd (huse.symm.trans hu)
          Bool.false_ne_true, fun _ _ => ?_, rfl, rfl, hopen, fun _ _ => Iff.rfl,
          fun hn => absurd hn hnotHeld, fun hu => absurd (huse.symm.trans hu) Bool.false_ne_true,
          fun _ => id, fun waiting hw => ⟨waiting, hw, Finset.Subset.refl _⟩, h.noPutBack,
          fun hw => h.drained (.inl hw)⟩
        exact hitem ▸ h.shutExecutor removal hexecutor (hitem ▸ hlast)
    | true =>
        -- the last name of an open file: it is left to a release
        rw [if_pos rfl] at hstep
        rw [← Option.some.inj hstep]
        have hnoDrain := (hlast' hlast).2 rfl
        have hmem : ∀ t : Task, t ≠ .notePendingRelease removal.item →
            (t ∈ .notePendingRelease removal.item :: s.tasks ↔ t ∈ s.tasks) := fun t ht =>
          ⟨fun hin => (List.mem_cons.mp hin).resolve_left ht, List.mem_cons_of_mem _⟩
        refine JobOn.kept (c := child) h ⟨hoff, fun _ => hused, fun _ ht => ?_, rfl, rfl, hopen,
          fun i hi => ?_, fun _ => ⟨hroot, hzero⟩, fun _ _ => .inr (.inr (.inl ?_)),
          fun i hin => (hmem (.release i) nofun).mp hin,
          fun waiting hw => absurd ((hmem (.drain waiting) nofun).mp hw) (hnoDrain waiting),
          fun i hin => h.noPutBack i ((hmem (.putBack i) nofun).mp hin),
          fun ⟨waiting, hw⟩ => absurd ((hmem (.drain waiting) nofun).mp hw) (hnoDrain waiting)⟩
        · exact absurd (huse.symm.trans ht).symm Bool.false_ne_true
        · change (i ∈ s.pendingRelease ∨ _ ∈ .notePendingRelease removal.item :: s.tasks ∨
            _ ∈ .notePendingRelease removal.item :: s.tasks ∨
              ∃ waiting, _ ∈ .notePendingRelease removal.item :: s.tasks ∧ _) ↔ Holds s i
          rw [hmem (.notePendingRelease i) fun heq =>
              hi ((Task.notePendingRelease.inj heq).trans hitem.symm), hmem (.release i) nofun]
          simp only [fun waiting => hmem (.drain waiting) nofun]
          rfl
        · exact hitem ▸ List.mem_cons_self

theorem kept_rename (h : Inv v₀ s freed) {move : Move} {src dst : Name} {env : Env} {kept : Bool}
    (hsafe : Safe s (.rename move src dst env kept)) (hidle : s.executor = none)
    (hopen : s.closed = false) :
    Kept v₀ s freed { s.goOn (.rename move) [] with
      core := settle s.core kept (Ext4b.rename s.core env move.sourceDirectory src
        move.destinationDirectory dst) } := by
  have hinv : Inv v₀ (s.goOn (.rename move) []) freed := h.goOn trivial
  rcases settle_cases s.core kept (Ext4b.rename s.core env move.sourceDirectory src
    move.destinationDirectory dst) with heq | heq
  · rw [heq]
    exact kept_of_core hinv rfl
  rw [heq]
  have hmem : ∀ t : Task, ¬ t.Idle → (t ∈ (s.goOn (.rename move) []).tasks ↔ t ∈ s.tasks) :=
    fun t ht => mem_goOn_iff List.not_mem_nil fun heq => ht (heq ▸ trivial)
  have hholds := @holds_congr s { s.goOn (.rename move) [] with
    core := (Ext4b.rename s.core env move.sourceDirectory src move.destinationDirectory
      dst).volume } rfl hmem
  have hjob : ∀ c, SameUseOff s.core (Ext4b.rename s.core env move.sourceDirectory src
        move.destinationDirectory dst).volume c →
      ((((Ext4b.rename s.core env move.sourceDirectory src move.destinationDirectory
        dst).volume).inodes c).inUse = true → (s.core.inodes c).inUse = true) →
      ((s.core.inodes c).inUse = true → (((Ext4b.rename s.core env move.sourceDirectory src
        move.destinationDirectory dst).volume).inodes c).inUse = false → s.openCounts c = 0) →
      (Holds s c → (((Ext4b.rename s.core env move.sourceDirectory src
        move.destinationDirectory dst).volume).inodes c).linksCnt = 0) →
      ((((Ext4b.rename s.core env move.sourceDirectory src move.destinationDirectory
        dst).volume).inodes c).inUse = true → (((Ext4b.rename s.core env move.sourceDirectory src
        move.destinationDirectory dst).volume).inodes c).linksCnt = 0 →
          (v₀.inodes c).linksCnt = 0 ∨ Holds s c) →
      Kept v₀ s freed { s.goOn (.rename move) [] with
        core := (Ext4b.rename s.core env move.sourceDirectory src move.destinationDirectory
          dst).volume } := by
    intro c hoff hused hshut hunlinked hheld
    refine JobOn.kept (c := c) h ⟨hoff, hused, hshut, rfl, hidle, hopen, fun i _ => hholds i,
      fun hn => ⟨(h.unlinked c ((hholds c).mp hn)).1, hunlinked ((hholds c).mp hn)⟩,
      fun hu hz => (hheld hu hz).imp_right (hholds c).mpr, fun i hi => (hmem _ id).mp hi,
      fun waiting hw => ⟨waiting, (hmem _ id).mp hw, Finset.Subset.refl _⟩,
      fun i hi => h.noPutBack i ((hmem _ id).mp hi), fun ⟨waiting, hw⟩ => ?_⟩
    obtain ⟨hempty, hnone⟩ := h.drained (.inl ⟨waiting, (hmem _ id).mp hw⟩)
    exact ⟨hempty, fun i hi => hnone i ((hmem _ id).mp hi)⟩
  obtain ⟨hchild, hvictim⟩ := hsafe
  rcases rename_effect env hchild fun victim hdst hne =>
      ⟨(hvictim victim hdst hne).1, (hvictim victim hdst hne).2.1, (hvictim victim hdst hne).2.2.1,
        fun hlast => ((hvictim victim hdst hne).2.2.2 hlast).1⟩ with
    hsame | ⟨victim, hdst, hne, hlast, hoff, hgone⟩
  · -- no inode comes into use or goes out of it; any inode will do for `c`
    refine hjob 0 (fun i _ => hsame i) (fun hu => (hsame 0).1 ▸ hu) (fun hs ht => ?_)
      (fun hn => (hsame 0).2.mpr (h.unlinked 0 hn).2)
      fun hu hz => h.held 0 ((hsame 0).1 ▸ hu) ((hsame 0).2.mp hz)
    rw [(hsame 0).1, hs] at ht
    cases ht
  · obtain ⟨-, -, hlinks, hshut⟩ := hvictim victim hdst hne
    exact hjob victim hoff (fun hu => absurd (hgone.symm.trans hu) Bool.false_ne_true)
      (fun _ _ => (hshut hlast).2) (fun hn => absurd (h.unlinked victim hn).2 hlinks)
      fun hu => absurd (hgone.symm.trans hu) Bool.false_ne_true

/-- **Every event that does no harm** keeps the invariant and frees nothing that is open. -/
theorem kept_step (h : Inv v₀ s freed) {e : Event} (hsafe : Safe s e) (hstep : step s e = some t) :
    Kept v₀ s freed t := by
  cases e with
  | openItem ino =>
      rw [← Option.some.inj hstep]
      exact kept_of_core (kept_openItem h hsafe) rfl
  | closeItem ino =>
      have hclose := kept_closeItem h ino
      rw [← Option.some.inj hstep]
      dsimp only
      split
      · exact kept_of_core hclose rfl
      · exact kept_of_core (hclose.cons trivial) rfl
  | deactivateItem ino =>
      rw [← Option.some.inj hstep]
      exact kept_of_core (h.cons trivial) rfl
  | removeItem removal =>
      rw [← Option.some.inj hstep]
      exact kept_of_core (h.cons trivial) rfl
  | renameItem move =>
      rw [← Option.some.inj hstep]
      exact kept_of_core (h.cons trivial) rfl
  | unmount =>
      rw [← Option.some.inj hstep]
      exact kept_of_core (h.cons trivial) rfl
  | releaseIfPending ino =>
      unfold step at hstep
      dsimp only at hstep
      split at hstep
      · cases hstep
      split at hstep
      · next hpending =>
        rw [← Option.some.inj hstep]
        exact kept_of_core (kept_releaseIfPending h hpending (hsafe hpending)) rfl
      · rw [← Option.some.inj hstep]
        exact kept_of_core (h.goOn trivial) rfl
  | release ino now kept =>
      unfold step at hstep
      dsimp only at hstep
      split at hstep
      · cases hstep
      next hready =>
      rw [not_or, not_not, not_not] at hready
      obtain ⟨w, hjob, hkept⟩ := kept_release h now kept hready.1 hready.2 hsafe
      rw [hjob] at hstep
      exact Option.some.inj hstep ▸ hkept
  | putBack ino =>
      have hnone : step s (.putBack ino) = none := if_pos (h.noPutBack ino)
      rw [hnone] at hstep
      cases hstep
  | remove removal =>
      unfold step at hstep
      dsimp only at hstep
      split at hstep
      · cases hstep
      split at hstep
      · rw [← Option.some.inj hstep]
        exact kept_of_core (h.goOn trivial) rfl
      · next hopen =>
        rw [← Option.some.inj hstep]
        exact kept_of_core (kept_remove h hopen) rfl
  | unlink stored env kept => exact kept_unlink h hsafe hstep
  | notePendingRelease ino =>
      unfold step at hstep
      dsimp only at hstep
      split at hstep
      · cases hstep
      next hnote =>
      rw [← Option.some.inj hstep]
      exact kept_of_core (kept_notePendingRelease h (not_not.mp hnote)) rfl
  | rename move src dst env kept =>
      unfold step at hstep
      dsimp only at hstep
      split at hstep
      · cases hstep
      next hready =>
      rw [not_or, not_not, not_not] at hready
      split at hstep
      · rw [← Option.some.inj hstep]
        exact kept_of_core (h.goOn trivial) rfl
      · next hopen =>
        exact Option.some.inj hstep ▸ kept_rename h hsafe hready.2 (eq_false_of_ne_true hopen)
  | releaseAllPending =>
      unfold step at hstep
      dsimp only at hstep
      split at hstep
      · cases hstep
      rw [← Option.some.inj hstep]
      exact kept_of_core (kept_releaseAllPending h hsafe) rfl
  | drain waiting ino now kept =>
      unfold step at hstep
      dsimp only at hstep
      split at hstep
      · cases hstep
      next hready =>
      rw [not_or, not_or, not_not, not_not, not_not] at hready
      obtain ⟨hdrain, hino, hidle⟩ := hready
      obtain ⟨w, hjob, hkept⟩ :=
        kept_drain h now kept hdrain hino hidle hsafe
      rw [hjob] at hstep
      exact Option.some.inj hstep ▸ hkept
  | closeVolume =>
      unfold step at hstep
      dsimp only at hstep
      split at hstep
      · cases hstep
      next hready =>
      rw [not_or, not_not, not_not] at hready
      rw [← Option.some.inj hstep]
      exact kept_of_core (kept_closeVolume h hsafe hready.1 hready.2) rfl

end Steps

/-! ## Runs -/

/-- A run of events that do no harm, from a volume as it was mounted; it counts how often each inode
    is freed. -/
def SafeRun (s₀ : Driver) (x : Driver × (ℕ → ℕ)) : Prop :=
  Run countedStep (fun x e => Safe x.1 e) (s₀, fun _ => 0) x

theorem Driver.Started.inv {s : Driver} (h : s.Started) : Inv s.core s fun _ => 0 := by
  have hnone : ∀ t, t ∉ s.tasks := fun t ht => by
    rw [h.tasks] at ht
    exact List.not_mem_nil ht
  have hholds : ∀ i, ¬ Holds s i := by
    rintro i (hi | hi | hi | ⟨waiting, hw, -⟩)
    · rw [h.pendingRelease] at hi
      exact Finset.notMem_empty i hi
    · exact hnone _ hi
    · exact hnone _ hi
    · exact hnone _ hw
  constructor
  · exact fun i => id
  · refine fun i => (if_neg fun hn => ?_).symm
    exact Bool.false_ne_true (hn.2.symm.trans hn.1)
  · exact fun i _ hzero => .inl hzero
  · exact fun i hi => absurd hi (hholds i)
  · exact fun i hi => absurd hi (hnone _)
  · exact fun waiting hw => absurd hw (hnone _)
  · exact fun removal hn => absurd (h.executor.symm.trans hn).symm (Option.some_ne_none _)
  · exact fun i => hnone _
  · exact fun _ => ⟨h.pendingRelease, fun i => hnone _⟩
  · exact fun _ => ⟨h.executor, hholds⟩

theorem SafeRun.inv {s₀ : Driver} {x : Driver × (ℕ → ℕ)} (hstart : s₀.Started)
    (hrun : SafeRun s₀ x) : Inv s₀.core x.1 x.2 := by
  refine Run.invariant (I := fun x => Inv s₀.core x.1 x.2) (fun x e y hsafe hstep h => ?_) hrun
    hstart.inv
  obtain ⟨t, hstep', rfl⟩ := Option.map_eq_some_iff.mp hstep
  exact (kept_step h hsafe hstep').1

/-- The root holds files 12 and 13 as `a` and `b`. -/
def twoFiles : Volume where
  inodes i :=
    if i = 2 then
      { freshInode .dir with
        linksCnt := 2
        dot := some 2
        dotdot := some 2
        entries := [⟨[0x61], 12⟩, ⟨[0x62], 13⟩] }
    else if i = 12 ∨ i = 13 then { freshInode .file with linksCnt := 1 }
    else { freshInode .file with inUse := false }
  inodesCount := 16
  firstInode := 11
  lastOrphan := 0
  dirIndex := false

/-- The volume as it is mounted. -/
def twoFilesDriver : Driver := ⟨twoFiles, false, fun _ => 0, ∅, [], none⟩

/-- Every block reads, and entries are added in front. -/
def plainEnv : Env := ⟨14, 0, 1000, fun _ => false⟩

theorem twoFilesDriver_started : twoFilesDriver.Started := ⟨rfl, fun _ => rfl, rfl, rfl, rfl⟩

end Ext4Volume

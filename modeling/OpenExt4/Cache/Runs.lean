import OpenExt4.Cache.Transparent

set_option autoImplicit false

/-! # Runs of the cache

Any sequence of calls, with any pattern of write errors. The calls that break the cache are named
by what holds before them: an LRU id that comes around again, a buffer that is not kept and whose
last write fails, and a flush that finds no error latched for a buffer it cannot see. -/

namespace Bcache

open Cache Transitions

variable {α : Type}

/-- The cache, and what each block's latest contents are, if anybody knows. -/
structure State (α : Type) where
  cache : Cache α
  latest : ℕ → Option α

/-- A call, with what the device and the allocator answer. -/
inductive Call (α : Type) where
  | get (x : ℕ) (mem : Option α) (readOk : Bool) (w : ℕ → WriteRes α)
  | getNoread (x : ℕ) (mem : Option α) (w : ℕ → WriteRes α)
  | getSb (mem : Option α) (readOk : Bool) (w : ℕ → WriteRes α)
  | modify (x : ℕ) (d : α)
  | mark (x : ℕ) (flush tmp endWrite : Bool)
  | put (x : ℕ) (w : WriteRes α)
  | flushLba (x : ℕ) (w w' : WriteRes α)
  | shake (w : ℕ → WriteRes α)
  | invalidateLba (first cnt : ℕ)
  | cacheFlush (w : ℕ → WriteRes α)
  | writeBack (on : Bool) (w : ℕ → WriteRes α)

/-- What a call does, and its answer. -/
def exec (c : Cache α) : Call α → Rc × Cache α
  | .get x mem readOk w => c.get x mem readOk w
  | .getNoread x mem w => c.getNoread x mem w
  | .getSb mem readOk w => c.getSb mem readOk w
  | .modify x d => (.EOK, c.modify x d)
  | .mark x flush tmp endWrite => (.EOK, c.mark x flush tmp endWrite)
  | .put x w => (.EOK, c.free x w)
  | .flushLba x w w' => c.flushLba x w w'
  | .shake w => c.shake w
  | .invalidateLba first cnt => (.EOK, c.invalidateLba first cnt)
  | .cacheFlush w => c.cacheFlush w
  | .writeBack on w => c.writeBack on w

/-- Who changes or releases a buffer holds it, and a range is one of 64-bit block numbers. -/
def Ready (c : Cache α) : Call α → Prop
  | .modify x _ | .mark x _ _ _ | .put x _ => x ∈ c.lbaRoot ∧ (c.buf x).refctr ≠ 0
  | .invalidateLba first cnt => 1 ≤ cnt ∧ first + cnt ≤ 2 ^ 64
  | _ => True

instance (c : Cache α) : (e : Call α) → Decidable (Ready c e)
  | .modify .. | .mark .. | .put .. | .invalidateLba .. => inferInstanceAs (Decidable (_ ∧ _))
  | .get .. | .getNoread .. | .getSb .. | .flushLba .. | .shake .. | .cacheFlush ..
  | .writeBack .. => inferInstanceAs (Decidable True)

/-- What a call does to the latest contents: the holder of a buffer writes them, and what an
    invalidation of its range takes out of the cache falls back to the device. -/
def learn (s : State α) (c' : Cache α) : Call α → ℕ → Option α
  | .modify x d => Function.update s.latest x (some d)
  | .invalidateLba first cnt => fun x =>
      if InRange first cnt x ∧ (c'.line x).isNone then some (c'.device x) else s.latest x
  | _ => s.latest

/-- One call. -/
def step (s : State α) (e : Call α) : Option (State α) :=
  if Ready s.cache e then some ⟨(exec s.cache e).2, learn s (exec s.cache e).2 e⟩ else none

/-- A flush whose writes work sees every dirty buffer that nobody references, or an error is latched
    for it. -/
def FlushSees (c : Cache α) (w : ℕ → WriteRes α) : Prop :=
  c.ioErr = false → (∀ x ∈ c.dirtyList, w x = .ok) → ∀ x, ¬ Unlisted c x

/-- No buffer is given the id of another. -/
def Fresh (c : Cache α) : Call α → Prop
  | .get x _ _ _ | .getNoread x _ _ | .flushLba x _ _ => c.FreshId x
  | .getSb _ _ _ => c.FreshId c.sbLba
  | _ => True

/-- The calls after which the cache is still what it should be. -/
def Safe (s : State α) (e : Call α) : Prop :=
  Fresh s.cache e ∧
    match e with
    | .put x w => ¬ Loses s.cache x w
    | .flushLba x w w' => ¬ LosesTwice s.cache x w w'
    | .cacheFlush w => FlushSees s.cache w
    | .writeBack on w => on = false → s.cache.cacheWriteBack ≤ 1 → FlushSees s.cache w
    | _ => True

/-- What the answer of a call says. -/
def Answers (s : State α) : Call α → Prop
  | .get x mem readOk w => (s.cache.get x mem readOk w).1 = .EOK →
      ∀ d, s.latest x = some d → ((s.cache.get x mem readOk w).2.buf x).data = d
  | .getSb mem readOk w => (s.cache.getSb mem readOk w).1 = .EOK →
      ∀ d, s.latest s.cache.sbLba = some d →
        ((s.cache.getSb mem readOk w).2.buf s.cache.sbLba).data = d
  | .cacheFlush w => (s.cache.cacheFlush w).1 = .EOK → Settled s.cache (s.cache.cacheFlush w).2
  | .writeBack on w => on = false → s.cache.cacheWriteBack ≤ 1 →
      (s.cache.writeBack on w).1 = .EOK → Settled s.cache (s.cache.writeBack on w).2
  | _ => True

/-- A cache that was just set up, before a device of any contents. -/
structure Start (s : State α) : Prop where
  lbaRoot : s.cache.lbaRoot = []
  lruRoot : s.cache.lruRoot = []
  dirtyList : s.cache.dirtyList = []
  refBlocks : s.cache.refBlocks = 0
  latest : s.latest = fun x => some (s.cache.device x)

/-- The invariant of the runs. -/
structure Good (s : State α) : Prop where
  wf : Wf s.cache
  transparent : WriteBack.Transparent s.latest s.cache.line s.cache.device

theorem Start.good {s : State α} (h : Start s) : Good s := by
  obtain ⟨hlba, hlru, hlist, hcount, hlatest⟩ := h
  refine ⟨⟨by simp [hlba], by simp [hlba, hcount], by simp [hlru], by simp [hlist], fun x => ?_,
    by simp [hlba]⟩, fun x => ?_⟩
  · constructor <;> simp [hlba, hlru, hlist]
  · rw [hlatest, line_of_not_mem (by simp [hlba])]
    exact .absent

/-! ## One call -/

theorem wf_exec {c : Cache α} (h : Wf c) {e : Call α} (hid : Fresh c e) (hready : Ready c e) :
    Wf (exec c e).2 := by
  cases e with
  | get x mem readOk w => exact h.get hid mem readOk w
  | getNoread x mem w => exact h.getNoread hid mem w
  | getSb mem readOk w => exact h.getSb hid mem readOk w
  | modify x d => exact h.modify x d
  | mark x flush tmp endWrite => exact h.mark x flush tmp endWrite
  | put x w => exact h.free hready.1 hready.2 w
  | flushLba x w w' => exact h.flushLba hid w w'
  | shake w => exact (h.shake w).1
  | invalidateLba first cnt => exact h.invalidateLba first cnt
  | cacheFlush w => exact h.cacheFlush w
  | writeBack on w => exact h.writeBack on w

/-- A call changes the contents of a block, or loses them. -/
def Alters (c : Cache α) (y : ℕ) : Call α → Prop
  | .modify x _ => y = x
  | .invalidateLba first cnt => InRange first cnt y
  | .put x w => y = x ∧ Loses c x w
  | .flushLba x w w' => y = x ∧ LosesTwice c x w w'
  | _ => False

/-- A call keeps the contents of the blocks it does not alter. -/
theorem exec_kept {c : Cache α} (h : Wf c) {e : Call α} (hid : Fresh c e) (hready : Ready c e) {y : ℕ}
    (hy : ¬ Alters c y e) : KeptAt c (exec c e).2 y := by
  cases e with
  | get x mem readOk w => exact (Loads.get h hid mem readOk w y).1
  | getNoread x mem w => exact (Quiet.getNoread h mem w y).kept
  | getSb mem readOk w => exact (Loads.getSb h hid mem readOk w y).1
  | modify x d =>
      have hquiet : QuietAt c (c.modify x d) y := .of_buf Iff.rfl (setBuf_of_ne hy _) rfl
      exact hquiet.kept
  | mark x flush tmp endWrite =>
      have hquiet : Quiet c (c.mark x flush tmp endWrite) := .setBuf c x rfl rfl rfl
      exact (hquiet y).kept
  | put x w =>
      exact (QuietAt.free h hready.1 hready.2 fun heq hlost => hy ⟨heq, hlost⟩).kept
  | flushLba x w w' => exact (QuietAt.flushLba h hid fun heq hlost => hy ⟨heq, hlost⟩).kept
  | shake w => exact (Quiet.shake h w y).kept
  | invalidateLba first cnt =>
      refine ((h.invalidateLba_invalidated first cnt).quietAt fun hin => hy ?_).kept
      exact ((h.mem_walkFrom hready.1 hready.2).mp hin).2.2
  | cacheFlush w => exact (Quiet.cacheFlush h w y).kept
  | writeBack on w => exact (Quiet.writeBack h on w y).kept

/-- An invalidation gives its blocks back to the device, and leaves the others alone. -/
theorem Good.transparent_invalidate {s : State α} (h : Good s) {first cnt : ℕ}
    (hready : Ready s.cache (.invalidateLba first cnt)) (x : ℕ) :
    WriteBack.At (learn s (s.cache.invalidateLba first cnt) (.invalidateLba first cnt) x)
      ((s.cache.invalidateLba first cnt).line x) ((s.cache.invalidateLba first cnt).device x) := by
  have hinv := h.wf.invalidateLba_invalidated first cnt
  unfold learn
  dsimp only
  by_cases hx : x ∈ s.cache.walkFrom first cnt
  · have hrange := ((h.wf.mem_walkFrom hready.1 hready.2).mp hx).2.2
    have hline := line_of_not_uptodate (hinv.cleared x hx).1
    simp only [hline, hrange, Option.isNone_none, and_self, if_true]
    exact .absent
  · split
    · next hnone =>
        rw [Option.isNone_iff_eq_none.mp hnone.2]
        exact .absent
    · exact (hinv.quietAt hx).kept _ (h.transparent x)

theorem Good.transparent_exec {s : State α} (h : Good s) {e : Call α} (hsafe : Safe s e)
    (hready : Ready s.cache e) :
    WriteBack.Transparent (learn s (exec s.cache e).2 e) (exec s.cache e).2.line
      (exec s.cache e).2.device := by
  intro x
  have hkept : ¬ Alters s.cache x e → KeptAt s.cache (exec s.cache e).2 x :=
    exec_kept h.wf hsafe.1 hready
  cases e with
  | modify x' d =>
      by_cases hx : x = x'
      · subst hx
        simp only [exec, learn, Function.update_self, modify_line_self hready.1]
        exact .write
      · simp only [exec, learn, Function.update_of_ne hx]
        exact hkept hx _ (h.transparent x)
  | put x' w => exact hkept (fun hlost => hsafe.2 hlost.2) _ (h.transparent x)
  | flushLba x' w w' => exact hkept (fun hlost => hsafe.2 hlost.2) _ (h.transparent x)
  | invalidateLba first cnt => exact h.transparent_invalidate hready x
  | get x' mem readOk w => exact hkept id _ (h.transparent x)
  | getNoread x' mem w => exact hkept id _ (h.transparent x)
  | getSb mem readOk w => exact hkept id _ (h.transparent x)
  | mark x' flush tmp endWrite => exact hkept id _ (h.transparent x)
  | shake w => exact hkept id _ (h.transparent x)
  | cacheFlush w => exact hkept id _ (h.transparent x)
  | writeBack on w => exact hkept id _ (h.transparent x)

theorem Good.step {s t : State α} (h : Good s) {e : Call α} (hsafe : Safe s e)
    (htaken : step s e = some t) : Good t := by
  unfold Bcache.step at htaken
  split at htaken
  · next hready =>
      cases htaken
      exact ⟨wf_exec h.wf hsafe.1 hready, h.transparent_exec hsafe hready⟩
  · cases htaken

/-! ## Answers -/

/-- A block that was got has its latest contents. -/
theorem Good.fetch_data {s : State α} (h : Good s) {x : ℕ} (hid : s.cache.FreshId x)
    {mem : Option α} {readOk : Bool} {w : ℕ → WriteRes α} {w' : WriteRes α}
    (hok : (andThen (s.cache.getNoreadAt x mem w) fun c => c.fill x readOk w').1 = .EOK) {d : α}
    (hd : s.latest x = some d) :
    ((andThen (s.cache.getNoreadAt x mem w) fun c => c.fill x readOk w').2.buf x).data = d := by
  obtain ⟨dirty, hline⟩ := fetch_line hok
  have hat := (Loads.fetch h.wf hid mem readOk w w' x).1 _ (h.transparent x)
  exact ((hat d hd).1 _ hline).1

theorem Good.answers {s : State α} (h : Good s) {e : Call α} (hsafe : Safe s e) : Answers s e := by
  cases e with
  | get x mem readOk w =>
      intro hok d hd
      unfold Cache.get at hok ⊢
      rw [getNoread_eq] at hok ⊢
      split
      · next hx =>
          rw [if_pos hx] at hok
          exact h.fetch_data hsafe.1 hok hd
      · next hx =>
          rw [if_neg hx] at hok
          cases hok
  | getSb mem readOk w =>
      intro hok d hd
      unfold Cache.getSb at hok ⊢
      split
      · next hx =>
          rw [if_pos hx] at hok
          cases hok
      · next hx =>
          rw [if_neg hx] at hok
          exact h.fetch_data hsafe.1 hok hd
  | cacheFlush w => exact h.wf.cacheFlush_settled hsafe.2
  | writeBack on w =>
      intro hon hlast hok
      have hzero : s.cache.cacheWriteBack - 1 = 0 := by omega
      have hwf : Wf (s.cache.setWriteBack 0) := h.wf.congr rfl rfl rfl rfl rfl
      have heq : s.cache.writeBack on w = (s.cache.setWriteBack 0).cacheFlush w := by
        simp [Cache.writeBack, hon, hzero]
      rw [heq] at hok ⊢
      exact hwf.cacheFlush_settled (hsafe.2 hon hlast) hok
  | _ => trivial

/-- An empty cache of four buffers, before a device of zeros. -/
def blank : Cache ℕ where
  cnt := 4
  lruCtr := 0
  refBlocks := 0
  dontShake := false
  ioErr := false
  lbaRoot := []
  lruRoot := []
  dirtyList := []
  buf := fun _ => newBuf 0
  cacheWriteBack := 0
  lgBsize := 1024
  lgBcnt := 100
  device := fun _ => 0

/-- That cache, and what its device holds. -/
def fresh : State ℕ := ⟨blank, fun x => some (blank.device x)⟩

theorem fresh_start : Start fresh := ⟨rfl, rfl, rfl, rfl, rfl⟩

end Bcache

import Mathlib.Data.Nat.Find
import Mathlib.Data.Set.Card
import OpenExt4.Bridge.Orphans

set_option autoImplicit false

/-! # What the cleanup at mount does

The chain of an untrusted superblock and inode table, and what `ext4b_orphan_cleanup` frees, leaves
alone and leaves behind. -/

namespace Ext4b

/-! ## The chain -/

/-- The inode the chain comes to in `k` steps, 0 behind its end. -/
def headAt (v : Volume) : ℕ → ℕ
  | 0 => v.lastOrphan
  | k + 1 => if headAt v k = 0 then 0 else orphanNext v (headAt v k)

/-- The inode is on the chain. -/
def OnChain (v : Volume) (i : ℕ) : Prop :=
  orphanPlausible v v.lastOrphan = true ∧ i ≠ 0 ∧ ∃ k, headAt v k = i

/-- An allocated inode without links. -/
def Inode.Orphaned (d : Inode) : Prop := d.inUse = true ∧ d.linksCnt = 0

instance (d : Inode) : Decidable d.Orphaned := inferInstanceAs (Decidable (_ ∧ _))

/-- The inodes that have lost their bit. -/
def lost (v w : Volume) : Set ℕ := {i | (v.inodes i).inUse = true ∧ (w.inodes i).inUse = false}

/-- What the cleanup owes, from the volume it finds and what it returns to the one it leaves and the
    number of inodes it says it has freed. -/
structure CleanedUp (v : Volume) (r : Option Errno) (w : Volume) (freedCount : ℕ) : Prop where
  freed : ∀ i, (v.inodes i).inUse = true → (w.inodes i).inUse = false →
    OnChain v i ∧ (v.inodes i).Orphaned
  kept : ∀ i, (w.inodes i).inUse = (v.inodes i).inUse →
    w.inodes i = { v.inodes i with delTime := (w.inodes i).delTime } ∧
      (¬ OnChain v i ∨ (v.inodes i).inUse = false → w.inodes i = v.inodes i)
  used : ∀ i, (w.inodes i).inUse = true → (v.inodes i).inUse = true
  success : r = none → w.lastOrphan = 0 ∧
    ∀ i, OnChain v i → (v.inodes i).Orphaned → (w.inodes i).inUse = false
  once : r = none → freedCount = (lost v w).ncard
  failure : r ≠ none → ∀ i, OnChain v i → (v.inodes i).Orphaned → (w.inodes i).inUse = true →
    OnChain w i

section Chain

variable {v : Volume}

theorem orphanPlausible_ne_zero {i : ℕ} (h : orphanPlausible v i = true) : i ≠ 0 := by
  rintro rfl
  unfold orphanPlausible at h
  dsimp only at h
  rw [Bool.and_eq_true, decide_eq_true_eq] at h
  split at h
  · omega
  · have hroot : rootIno = 2 := rfl
    omega

theorem orphanNext_plausible {i : ℕ} (h : orphanNext v i ≠ 0) :
    orphanPlausible v (orphanNext v i) = true := by
  unfold orphanNext at h ⊢
  dsimp only at h ⊢
  split
  · next husable => exact husable
  · next hno => exact absurd (if_neg hno) h

theorem headAt_succ {k : ℕ} (h : headAt v k ≠ 0) : headAt v (k + 1) = orphanNext v (headAt v k) :=
  if_neg h

/-- From a usable head on, the chain has usable inodes only. -/
theorem headAt_plausible (hhead : orphanPlausible v v.lastOrphan = true) {k : ℕ}
    (h : headAt v k ≠ 0) : orphanPlausible v (headAt v k) = true := by
  cases k with
  | zero => exact hhead
  | succ k =>
      have hk : headAt v k ≠ 0 := fun hzero => h (if_pos hzero)
      rw [headAt_succ hk] at h ⊢
      exact orphanNext_plausible h

theorem headAt_zero_add {k : ℕ} (h : headAt v k = 0) (n : ℕ) : headAt v (k + n) = 0 := by
  induction n with
  | zero => exact h
  | succ n ih => exact if_pos ih

/-- Where the chain comes to an inode again, it goes on as before. -/
theorem headAt_repeat {j k : ℕ} (h : headAt v j = headAt v k) (n : ℕ) :
    headAt v (j + n) = headAt v (k + n) := by
  induction n with
  | zero => exact h
  | succ n ih =>
      change (if headAt v (j + n) = 0 then 0 else orphanNext v (headAt v (j + n))) =
        if headAt v (k + n) = 0 then 0 else orphanNext v (headAt v (k + n))
      rw [ih]

end Chain

/-! ## Volumes on the way -/

/-- The inode after its turn. -/
def settled (now : ℕ) (d : Inode) : Inode :=
  if d.inUse = false then d
  else if d.linksCnt ≠ 0 then { d with delTime := 0 }
  else freedInode now d

/-- The inode has had its turn. -/
def Visited (v : Volume) (k i : ℕ) : Prop := ∃ j < k, headAt v j = i

instance (v : Volume) (k i : ℕ) : Decidable (Visited v k i) :=
  inferInstanceAs (Decidable (∃ j < k, headAt v j = i))

/-- The volume after `k` turns, with `head` for the next. -/
def afterTurns (v : Volume) (now k head : ℕ) : Volume :=
  { v with
    inodes := fun i => if Visited v k i then settled now (v.inodes i) else v.inodes i
    lastOrphan := head }

/-- The orphans among the inodes that have had their turn. -/
def orphansMet (v : Volume) (k : ℕ) : Finset ℕ :=
  ((Finset.range k).image (headAt v)).filter fun i => (v.inodes i).Orphaned

theorem settled_of_free {now : ℕ} {d : Inode} (h : d.inUse = false) : settled now d = d := if_pos h

theorem settled_of_links {now : ℕ} {d : Inode} (h : ¬ d.inUse = false) (hlinks : d.linksCnt ≠ 0) :
    settled now d = { d with delTime := 0 } := (if_neg h).trans (if_pos hlinks)

theorem settled_of_orphaned {now : ℕ} {d : Inode} (h : d.Orphaned) :
    settled now d = freedInode now d :=
  (if_neg fun hfree => Bool.false_ne_true (hfree.symm.trans h.1)).trans
    (if_neg (not_not.mpr h.2))

theorem settled_inUse {now : ℕ} {d : Inode} :
    (settled now d).inUse = true ↔ d.inUse = true ∧ d.linksCnt ≠ 0 := by
  unfold settled
  split
  · next hfree =>
    rw [hfree]
    exact iff_of_false Bool.false_ne_true fun hn => Bool.false_ne_true hn.1
  · next hused =>
    replace hused := eq_true_of_ne_false hused
    split
    · next hlinks => exact iff_of_true hused ⟨hused, hlinks⟩
    · next hlinks => exact iff_of_false Bool.false_ne_true fun hn => hlinks hn.2

/-- A turn that does not free an inode changes its deletion time only, and that only if the inode
    is allocated. -/
theorem settled_kept {now : ℕ} {d : Inode} (h : (settled now d).inUse = d.inUse) :
    settled now d = { d with delTime := (settled now d).delTime } ∧
      (d.inUse = false → settled now d = d) := by
  unfold settled at h ⊢
  split
  · exact ⟨rfl, fun _ => rfl⟩
  · next hused =>
    rw [if_neg hused] at h
    split
    · exact ⟨rfl, fun hfree => absurd hfree hused⟩
    · next hlinks =>
      rw [if_neg hlinks] at h
      exact absurd h.symm hused

section AfterTurns

variable {v : Volume} {now k head : ℕ}

theorem afterTurns_zero : afterTurns v now 0 v.lastOrphan = v := by
  have hnone : ∀ i, ¬ Visited v 0 i := fun i ⟨j, hj, _⟩ => Nat.not_lt_zero j hj
  unfold afterTurns
  simp only [hnone, if_false]

theorem afterTurns_of_visited {i : ℕ} (h : Visited v k i) :
    (afterTurns v now k head).inodes i = settled now (v.inodes i) := if_pos h

theorem afterTurns_of_not_visited {i : ℕ} (h : ¬ Visited v k i) :
    (afterTurns v now k head).inodes i = v.inodes i := if_neg h

theorem mem_orphansMet {i : ℕ} :
    i ∈ orphansMet v k ↔ Visited v k i ∧ (v.inodes i).Orphaned := by
  unfold orphansMet Visited
  simp only [Finset.mem_filter, Finset.mem_image, Finset.mem_range]

theorem lost_afterTurns : lost v (afterTurns v now k head) = orphansMet v k := by
  ext i
  rw [Finset.mem_coe, mem_orphansMet]
  constructor
  · rintro ⟨hused, hfree⟩
    by_cases hvisited : Visited v k i
    · rw [afterTurns_of_visited hvisited] at hfree
      refine ⟨hvisited, hused, ?_⟩
      by_contra hlinks
      rw [settled_inUse.mpr ⟨hused, hlinks⟩] at hfree
      cases hfree
    · rw [afterTurns_of_not_visited hvisited, hused] at hfree
      cases hfree
  · rintro ⟨hvisited, horphan⟩
    refine ⟨horphan.1, ?_⟩
    rw [afterTurns_of_visited hvisited, settled_of_orphaned horphan]
    rfl

/-- What is freed on the way, and what is not. -/
theorem afterTurns_frames (hhead : orphanPlausible v v.lastOrphan = true)
    (hne : ∀ j < k, headAt v j ≠ 0) (i : ℕ) :
    ((v.inodes i).inUse = true → ((afterTurns v now k head).inodes i).inUse = false →
      OnChain v i ∧ (v.inodes i).Orphaned) ∧
    (((afterTurns v now k head).inodes i).inUse = (v.inodes i).inUse →
      (afterTurns v now k head).inodes i =
        { v.inodes i with delTime := ((afterTurns v now k head).inodes i).delTime } ∧
      (¬ OnChain v i ∨ (v.inodes i).inUse = false →
        (afterTurns v now k head).inodes i = v.inodes i)) ∧
    (((afterTurns v now k head).inodes i).inUse = true → (v.inodes i).inUse = true) := by
  by_cases hvisited : Visited v k i
  · obtain ⟨j, hj, hji⟩ := hvisited
    have hon : OnChain v i := ⟨hhead, hji ▸ hne j hj, j, hji⟩
    rw [afterTurns_of_visited ⟨j, hj, hji⟩]
    refine ⟨fun hused hfree => ⟨hon, hused, ?_⟩, fun hsame => ?_, fun hused => ?_⟩
    · by_contra hlinks
      rw [settled_inUse.mpr ⟨hused, hlinks⟩] at hfree
      cases hfree
    · obtain ⟨hkept, hfree⟩ := settled_kept hsame
      exact ⟨hkept, fun hor => hfree (hor.resolve_left fun hn => hn hon)⟩
    · exact (settled_inUse.mp hused).1
  · rw [afterTurns_of_not_visited hvisited]
    refine ⟨fun hused hfree => ?_, fun _ => ⟨rfl, fun _ => rfl⟩, id⟩
    rw [hused] at hfree
    cases hfree

/-- **A chain whose every inode has had its turn is cleaned up.** -/
theorem cleanedUp_of_all (hhead : orphanPlausible v v.lastOrphan = true)
    (hne : ∀ j < k, headAt v j ≠ 0) (hall : ∀ i, OnChain v i → Visited v k i)
    (r : Option Errno) {n : ℕ} (hn : r = none → n = (orphansMet v k).card) :
    CleanedUp v r (afterTurns v now k 0) n := by
  have hgone : ∀ i, OnChain v i → (v.inodes i).Orphaned →
      ((afterTurns v now k 0).inodes i).inUse = false := by
    intro i hon horphan
    rw [afterTurns_of_visited (hall i hon)]
    by_contra hused
    exact (settled_inUse.mp (eq_true_of_ne_false hused)).2 horphan.2
  refine ⟨fun i => (afterTurns_frames hhead hne i).1, fun i => (afterTurns_frames hhead hne i).2.1,
    fun i => (afterTurns_frames hhead hne i).2.2, fun _ => ⟨rfl, hgone⟩,
    fun hr => (hn hr).trans (lost_afterTurns ▸ (Set.ncard_coe_finset _).symm),
    fun _ i hon horphan hused => ?_⟩
  rw [hgone i hon horphan] at hused
  cases hused

/-- **A cleanup that stops leaves what it has not freed behind the head**, be it the head before
    the turn or one that has moved on over inodes that are no orphans. -/
theorem cleanedUp_of_stop (hhead : orphanPlausible v v.lastOrphan = true)
    (hne : ∀ j < k, headAt v j ≠ 0) {s : ℕ} (hks : k ≤ s)
    (hskip : ∀ j < s, k ≤ j → ¬ (v.inodes (headAt v j)).Orphaned) (e : Errno) (n : ℕ) :
    CleanedUp v (some e) (afterTurns v now k (headAt v s)) n := by
  refine ⟨fun i => (afterTurns_frames hhead hne i).1, fun i => (afterTurns_frames hhead hne i).2.1,
    fun i => (afterTurns_frames hhead hne i).2.2, nofun, nofun, fun _ i hon horphan hused => ?_⟩
  have hfresh : ¬ Visited v k i := by
    intro hvisited
    rw [afterTurns_of_visited hvisited] at hused
    exact (settled_inUse.mp hused).2 horphan.2
  obtain ⟨-, hi, hex⟩ := hon
  -- the first time the chain comes to `i`
  have hfirst := fun j => Nat.find_min (m := j) hex
  have hn := Nat.find_spec hex
  generalize Nat.find hex = n at hfirst hn
  have hsn : s ≤ n := by
    by_contra hlt
    rcases Nat.lt_or_ge n k with hbefore | hafter
    · exact hfresh ⟨n, hbefore, hn⟩
    · exact hskip n (Nat.lt_of_not_le hlt) hafter (hn ▸ horphan)
  have hwalk : ∀ t, s + t ≤ n →
      headAt (afterTurns v now k (headAt v s)) t = headAt v (s + t) := by
    intro t
    induction t with
    | zero => exact fun _ => rfl
    | succ t ih =>
        intro hle
        have ht := ih (Nat.le_of_succ_le hle)
        have hnz : headAt v (s + t) ≠ 0 := by
          intro hzero
          have hlater := headAt_zero_add hzero (n - (s + t))
          rw [show s + t + (n - (s + t)) = n by omega, hn] at hlater
          exact hi hlater
        -- an inode met before in use would bring the chain to `i` earlier
        have hsame : ((afterTurns v now k (headAt v s)).inodes (headAt v (s + t))).delTime =
            (v.inodes (headAt v (s + t))).delTime := by
          by_cases hvisited : Visited v k (headAt v (s + t))
          · obtain ⟨j, hj, hjt⟩ := hvisited
            have hearlier := headAt_repeat hjt (n - (s + t))
            rw [show s + t + (n - (s + t)) = n by omega, hn] at hearlier
            exact absurd hearlier (hfirst _ (by omega))
          · rw [afterTurns_of_not_visited hvisited]
        change (if headAt _ t = 0 then 0 else orphanNext _ (headAt _ t)) = _
        rw [ht, if_neg hnz, ← Nat.add_assoc, headAt_succ hnz]
        unfold orphanNext
        dsimp only
        rw [hsame]
        rfl
  refine ⟨?_, hi, n - s, ?_⟩
  · have hs : headAt v s ≠ 0 := by
      intro hzero
      have hlater := headAt_zero_add hzero (n - s)
      rw [show s + (n - s) = n by omega, hn] at hlater
      exact hi hlater
    exact headAt_plausible hhead hs
  · rw [hwalk (n - s) (by omega), show s + (n - s) = n by omega, hn]

end AfterTurns

/-- The cached block of the superblock has the head of the superblock in memory, and between the
    transactions of a journal nothing is pending. -/
def Mount.Synced (m : Mount) : Prop :=
  m.sbBlock = m.cur.lastOrphan ∧ (m.journal = true → m.txnOps = 0 → m.disk = m.cur)

/-- What a journal keeps is what it kept before, or the transaction is committed. -/
def Mount.Follows (m m' : Mount) : Prop :=
  m'.journal = m.journal ∧ (m.journal = true → m'.disk = m.disk ∨ m'.disk = m'.cur)

section Txn

variable {m : Mount} {t : TxnEnv}

theorem txnFinish_ok (hcommit : t.commit = none) (hblock : m.sbBlock = m.cur.lastOrphan) :
    (txnFinish m t none).2.cur = m.cur ∧ (txnFinish m t none).2.Synced ∧
      m.Follows (txnFinish m t none).2 ∧
      ∀ e, (txnFinish m t none).1 = some e → t.flush = some e := by
  have hdisk : { m.cur with lastOrphan := m.sbBlock } = m.cur := by rw [hblock]
  unfold txnFinish
  dsimp only
  split
  · exact ⟨rfl, ⟨hblock, fun _ hzero => absurd hzero (Nat.succ_ne_zero _)⟩,
      ⟨rfl, fun _ => .inl rfl⟩, nofun⟩
  · rw [hcommit]
    exact ⟨rfl, ⟨hblock, fun _ _ => hdisk⟩, ⟨rfl, fun _ => .inr hdisk⟩, fun _ => id⟩

/-- A call that fails before it changes anything leaves everything as it was. -/
theorem txnFinish_error (hcommit : t.commit = none) (hsync : m.Synced) (e : Errno) :
    (txnFinish m t (some e)).1 = some e ∧ (txnFinish m t (some e)).2.cur = m.cur ∧
      (txnFinish m t (some e)).2.Synced ∧ m.Follows (txnFinish m t (some e)).2 := by
  obtain ⟨hblock, hdisk⟩ := hsync
  unfold txnFinish
  dsimp only
  split
  · next hops =>
    refine ⟨rfl, ?_⟩
    unfold Mount.abort
    split
    · next hjournal =>
      have hsame := hdisk hjournal hops
      have hcur : { m.disk with lastOrphan := m.cur.lastOrphan } = m.cur := by rw [hsame]
      refine ⟨hcur, ⟨?_, fun _ _ => hsame.trans hcur.symm⟩, rfl, fun _ => .inl rfl⟩
      rw [hsame]
    · next hno =>
      exact ⟨rfl, ⟨hblock, fun hjournal => absurd hjournal hno⟩, rfl, fun _ => .inl rfl⟩
  · rw [hcommit]
    have hcur : { m.cur with lastOrphan := m.sbBlock } = m.cur := by rw [hblock]
    exact ⟨rfl, rfl, ⟨hblock, fun _ _ => hcur⟩, rfl, fun _ => .inr hcur⟩

/-- A call that fails leaves what it changed, or what was there before it with the head it wrote. -/
theorem txnFinish_failed {v : Volume} (hcommit : t.commit = none)
    (hdisk : m.journal = true → m.txnOps = 0 → m.disk = v) (e : Errno) :
    (txnFinish m t (some e)).1 = some e ∧ ((txnFinish m t (some e)).2.cur = m.cur ∨
      (txnFinish m t (some e)).2.cur = { v with lastOrphan := m.cur.lastOrphan }) := by
  unfold txnFinish
  dsimp only
  split
  · next hops =>
    refine ⟨rfl, ?_⟩
    unfold Mount.abort
    split
    · next hjournal =>
      right
      rw [← hdisk hjournal hops]
    · exact .inl rfl
  · rw [hcommit]
    exact ⟨rfl, .inl rfl⟩

/-- A call that succeeds fails only with its commit or the flush behind it. -/
theorem txnFinish_none (hcommit : t.commit = none) (hflush : t.flush = none) :
    (txnFinish m t none).1 = none := by
  unfold txnFinish
  dsimp only
  split
  · rfl
  · rw [hcommit]
    exact hflush

/-- A commit does not change what the cache has. -/
theorem txnFinish_cur (hcommit : t.commit = none) : (txnFinish m t none).2.cur = m.cur := by
  unfold txnFinish
  dsimp only
  split
  · rfl
  · rw [hcommit]
    rfl

end Txn

/-! ## Turns -/

/-- What a turn makes of the volume. -/
def takeTurn (v : Volume) (now : ℕ) : Volume :=
  { v.modify v.lastOrphan (settled now) with lastOrphan := orphanNext v v.lastOrphan }

/-- The turn can begin and read what it works on. -/
def Faults.reads (f : Faults) : Prop := f.begin = none ∧ f.get = none ∧ f.inUse = none

instance (f : Faults) : Decidable f.reads := inferInstanceAs (Decidable (_ ∧ _))

theorem cleanupFinish_failed {c : Cleanup} {m : Mount} {f : Faults} {v : Volume}
    (hcommit : f.txn.commit = none) (hdisk : m.journal = true → m.txnOps = 0 → m.disk = v)
    (e : Errno) :
    ∃ c', cleanupFinish c m f.txn (some e) 0 0 = (some (some e), c') ∧
      (c'.mount.cur = m.cur ∨ c'.mount.cur = { v with lastOrphan := m.cur.lastOrphan }) := by
  obtain ⟨hr, hcur⟩ := txnFinish_failed hcommit hdisk e
  unfold cleanupFinish
  generalize txnFinish m f.txn (some e) = x at hr hcur
  obtain ⟨r, m'⟩ := x
  dsimp only at hr hcur
  subst hr
  exact ⟨{ c with mount := m' }, rfl, hcur⟩

theorem cleanupFinish_error {c : Cleanup} {f : Faults} (hcommit : f.txn.commit = none)
    (hsync : c.mount.Synced) (e : Errno) :
    ∃ c', cleanupFinish c c.mount f.txn (some e) 0 0 = (some (some e), c') ∧
      c'.mount.cur = c.mount.cur ∧ c'.mount.Synced ∧ c.mount.Follows c'.mount := by
  obtain ⟨hr, hcur⟩ := txnFinish_error hcommit hsync e
  unfold cleanupFinish
  generalize txnFinish c.mount f.txn (some e) = x at hr hcur
  obtain ⟨r, m⟩ := x
  dsimp only at hr hcur
  subst hr
  exact ⟨{ c with mount := m }, rfl, hcur⟩

theorem cleanupFinish_ok {c : Cleanup} {m : Mount} {f : Faults} (hcommit : f.txn.commit = none)
    (hblock : m.sbBlock = m.cur.lastOrphan) (freed dropped : ℕ) :
    ∃ r c', cleanupFinish c m f.txn none freed dropped = (r, c') ∧ c'.mount.cur = m.cur ∧
      c'.mount.Synced ∧ m.Follows c'.mount ∧ ((r = none ∧ c'.freed = c.freed + freed) ∨
        ∃ e, r = some (some e) ∧ f.txn.flush = some e) := by
  obtain ⟨hcur, hsync, hfollows, hr⟩ := txnFinish_ok hcommit hblock
  unfold cleanupFinish
  generalize txnFinish m f.txn none = x at hcur hsync hfollows hr
  obtain ⟨r, m'⟩ := x
  cases r with
  | none => exact ⟨none, _, rfl, hcur, hsync, hfollows, .inl ⟨rfl, rfl⟩⟩
  | some e => exact ⟨some (some e), _, rfl, hcur, hsync, hfollows, .inr ⟨e, rfl, hr e rfl⟩⟩

section Turn

variable {c : Cleanup} {f : Faults} {now : ℕ}

theorem cleanupTurn_unread (hsync : c.mount.Synced)
    (hino : orphanPlausible c.mount.cur c.mount.cur.lastOrphan = true)
    (hcommit : f.txn.commit = none) (hreads : ¬ f.reads) :
    ∃ e c', cleanupTurn c f now = (some (some e), c') ∧ c'.mount.cur = c.mount.cur ∧
      c'.mount.Synced ∧ c.mount.Follows c'.mount := by
  have hne := orphanPlausible_ne_zero hino
  unfold cleanupTurn
  dsimp only
  rw [if_neg hne, if_neg (fun hno => Bool.false_ne_true (hno.symm.trans hino))]
  cases hbegin : f.begin with
  | some e => exact ⟨e, c, rfl, rfl, hsync, rfl, fun _ => .inl rfl⟩
  | none =>
  cases hget : f.get with
  | some e => exact ⟨e, cleanupFinish_error hcommit hsync e⟩
  | none =>
  cases huse : f.inUse with
  | some e => exact ⟨e, cleanupFinish_error hcommit hsync e⟩
  | none => exact absurd ⟨hbegin, hget, huse⟩ hreads

theorem cleanupTurn_unwritten {e : Errno}
    (hino : orphanPlausible c.mount.cur c.mount.cur.lastOrphan = true) (hreads : f.reads)
    (hpublish : f.publish = some e) :
    cleanupTurn c f now = cleanupFinish c { c.mount with
      cur := { c.mount.cur with lastOrphan := orphanNext c.mount.cur c.mount.cur.lastOrphan } }
        f.txn (some e) 0 0 := by
  have hne := orphanPlausible_ne_zero hino
  unfold cleanupTurn
  dsimp only
  rw [if_neg hne, if_neg (fun hno => Bool.false_ne_true (hno.symm.trans hino)), hreads.1,
    hreads.2.1, hreads.2.2, hpublish]

theorem cleanupTurn_written
    (hino : orphanPlausible c.mount.cur c.mount.cur.lastOrphan = true) (hreads : f.reads)
    (hpublish : f.publish = none) :
    cleanupTurn c f now =
      let m := c.mount.publishHead true (orphanNext c.mount.cur c.mount.cur.lastOrphan)
      let ino := c.mount.cur.lastOrphan
      if (c.mount.cur.inodes ino).inUse = false then cleanupFinish c m f.txn none 0 1
      else if (c.mount.cur.inodes ino).linksCnt ≠ 0 then
        cleanupFinish c { m with cur := orphanSetNext m.cur ino 0 } f.txn none 0 1
      else
        match f.free with
        | some e =>
            cleanupFinish c { m with cur := orphanSetNext m.cur ino now } f.txn (some e) 0 0
        | none =>
        match freeInode m.cur now ino with
        | .error (e, v) => cleanupFinish c { m with cur := v } f.txn (some e) 0 0
        | .ok v => cleanupFinish c { m with cur := v } f.txn none 1 0 := by
  have hne := orphanPlausible_ne_zero hino
  unfold cleanupTurn
  dsimp only
  rw [if_neg hne, if_neg (fun hno => Bool.false_ne_true (hno.symm.trans hino)), hreads.1,
    hreads.2.1, hreads.2.2, hpublish]
  rfl

/-- How a turn may end that does not lose its inode. -/
inductive Turned (c : Cleanup) (f : Faults) (now : ℕ) : Option (Option Errno) → Cleanup → Prop
  | unread {e : Errno} {c' : Cleanup} : ¬ f.reads → c'.mount.cur = c.mount.cur →
      c'.mount.Synced → c.mount.Follows c'.mount → Turned c f now (some (some e)) c'
  | unwritten {e : Errno} {c' : Cleanup} : f.reads → f.publish ≠ none →
      c'.mount.cur = { c.mount.cur with
        lastOrphan := orphanNext c.mount.cur c.mount.cur.lastOrphan } →
      Turned c f now (some (some e)) c'
  | taken {r : Option (Option Errno)} {c' : Cleanup} : f.reads → f.publish = none →
      c'.mount.Synced → c.mount.Follows c'.mount → c'.mount.cur = takeTurn c.mount.cur now →
      ((r = none ∧ c'.freed = c.freed +
          if (c.mount.cur.inodes c.mount.cur.lastOrphan).Orphaned then 1 else 0) ∨
        ∃ e, r = some (some e) ∧ f.txn.flush = some e) →
      Turned c f now r c'

/-- **One turn**: it stops at what it cannot read, with everything as it was, or at the head it
    cannot write, or the inode is settled and the head moves on, whether or not the loop does. -/
theorem cleanupTurn_turned (now : ℕ) (hsync : c.mount.Synced)
    (hino : orphanPlausible c.mount.cur c.mount.cur.lastOrphan = true)
    (hcommit : f.txn.commit = none)
    (hfree : f.reads → f.publish = none →
      (c.mount.cur.inodes c.mount.cur.lastOrphan).Orphaned →
        f.free = none ∧ canTruncate (c.mount.cur.inodes c.mount.cur.lastOrphan) = true) :
    ∃ r c', cleanupTurn c f now = (r, c') ∧ Turned c f now r c' := by
  by_cases hreads : f.reads
  case neg =>
    obtain ⟨e, c', heq, hcur, hsync', hfollows⟩ := cleanupTurn_unread hsync hino hcommit hreads
    exact ⟨_, c', heq, .unread hreads hcur hsync' hfollows⟩
  cases hpublish : f.publish with
  | some e =>
      rw [cleanupTurn_unwritten hino hreads hpublish]
      obtain ⟨c', heq, hcur⟩ := cleanupFinish_failed (c := c) (m := { c.mount with
        cur := { c.mount.cur with lastOrphan := orphanNext c.mount.cur c.mount.cur.lastOrphan } })
        hcommit hsync.2 e
      refine ⟨_, c', heq, .unwritten hreads ?_ (hcur.elim id id)⟩
      rw [hpublish]
      exact Option.some_ne_none e
  | none =>
  rw [cleanupTurn_written hino hreads hpublish]
  dsimp only
  -- whatever the branch, it makes of the volume what a turn does
  have hfinish : ∀ (w : Volume) (freed dropped : ℕ), w = takeTurn c.mount.cur now →
      (freed = if (c.mount.cur.inodes c.mount.cur.lastOrphan).Orphaned then 1 else 0) →
      ∃ r c', cleanupFinish c { c.mount.publishHead true w.lastOrphan with cur := w } f.txn none
        freed dropped = (r, c') ∧ Turned c f now r c' := by
    intro w freed dropped hw hfreed
    obtain ⟨r, c', heq, hcur, hsync', hfollows, hr⟩ := cleanupFinish_ok (c := c)
      (m := { c.mount.publishHead true w.lastOrphan with cur := w }) hcommit rfl freed dropped
    -- in a transaction of a journal the head is written to no disk
    have hdisk : c.mount.journal = true →
        (c.mount.publishHead true w.lastOrphan).disk = c.mount.disk := by
      intro hjournal
      refine if_pos ?_
      rw [hjournal]
      rfl
    have hfollows' : c.mount.Follows c'.mount :=
      ⟨hfollows.1, fun hjournal => hdisk hjournal ▸ hfollows.2 hjournal⟩
    rw [hfreed] at hr
    exact ⟨r, c', heq, .taken hreads hpublish hsync' hfollows' (hcur.trans hw) hr⟩
  split
  · next hfree' =>
    refine hfinish { c.mount.cur with
      lastOrphan := orphanNext c.mount.cur c.mount.cur.lastOrphan } 0 1 ?_ ?_
    · unfold takeTurn
      rw [Volume.modify_eq_self c.mount.cur _ (settled now) (settled_of_free hfree')]
    · exact (if_neg fun hn => Bool.false_ne_true (hfree'.symm.trans hn.1)).symm
  · next hused =>
    split
    · next hlinks =>
      refine hfinish (orphanSetNext { c.mount.cur with
        lastOrphan := orphanNext c.mount.cur c.mount.cur.lastOrphan }
          c.mount.cur.lastOrphan 0) 0 1 ?_ ?_
      · unfold takeTurn
        rw [Volume.modify_congr c.mount.cur _ (settled now) (g := fun d => { d with delTime := 0 })
          (settled_of_links hused hlinks)]
        rfl
      · exact (if_neg fun hn => hlinks hn.2).symm
    · next hlinks =>
      have horphan : (c.mount.cur.inodes c.mount.cur.lastOrphan).Orphaned :=
        ⟨eq_true_of_ne_false hused, not_not.mp hlinks⟩
      obtain ⟨hfault, htruncate⟩ := hfree hreads hpublish horphan
      rw [hfault]
      dsimp only
      have hinode : (c.mount.publishHead true
          (orphanNext c.mount.cur c.mount.cur.lastOrphan)).cur.inodes c.mount.cur.lastOrphan =
            c.mount.cur.inodes c.mount.cur.lastOrphan := rfl
      unfold freeInode
      rw [hinode, if_pos htruncate]
      refine hfinish (Volume.modify { c.mount.cur with
        lastOrphan := orphanNext c.mount.cur c.mount.cur.lastOrphan }
          c.mount.cur.lastOrphan (freedInode now)) 1 0 ?_ (if_pos horphan).symm
      unfold takeTurn
      rw [Volume.modify_congr c.mount.cur _ (settled now) (g := freedInode now)
        (settled_of_orphaned horphan)]
      rfl

/-- **A turn that loses its inode**: the head has moved on, and the inode is still allocated. -/
theorem cleanupTurn_loses (now : ℕ) (hsync : c.mount.Synced)
    (hino : orphanPlausible c.mount.cur c.mount.cur.lastOrphan = true)
    (hcommit : f.txn.commit = none) (hreads : f.reads)
    (horphan : (c.mount.cur.inodes c.mount.cur.lastOrphan).Orphaned)
    (hfails : ¬ (f.publish = none ∧ f.free = none ∧
      canTruncate (c.mount.cur.inodes c.mount.cur.lastOrphan) = true)) :
    ∃ e c', cleanupTurn c f now = (some (some e), c') ∧
      c'.mount.cur.lastOrphan = orphanNext c.mount.cur c.mount.cur.lastOrphan ∧
      (c'.mount.cur.inodes c.mount.cur.lastOrphan).inUse = true ∧
      (∀ i, i ≠ c.mount.cur.lastOrphan → c'.mount.cur.inodes i = c.mount.cur.inodes i) ∧
      (∀ i, orphanPlausible c'.mount.cur i = orphanPlausible c.mount.cur i) := by
  cases hpublish : f.publish with
  | some e =>
      rw [cleanupTurn_unwritten hino hreads hpublish]
      obtain ⟨c', heq, hcur⟩ := cleanupFinish_failed (c := c) (m := { c.mount with
        cur := { c.mount.cur with lastOrphan := orphanNext c.mount.cur c.mount.cur.lastOrphan } })
        hcommit hsync.2 e
      refine ⟨e, c', heq, ?_⟩
      rw [hcur.elim id id]
      exact ⟨rfl, horphan.1, fun _ _ => rfl, fun _ => rfl⟩
  | none =>
  rw [cleanupTurn_written hino hreads hpublish]
  dsimp only
  rw [if_neg (fun hn => Bool.false_ne_true (hn.symm.trans horphan.1)),
    if_neg (not_not.mpr horphan.2)]
  -- either way the inode has its deletion time, and the transaction fails
  have hfinish : ∀ e, ∃ c', cleanupFinish c
      { c.mount.publishHead true (orphanNext c.mount.cur c.mount.cur.lastOrphan) with
        cur := orphanSetNext
          (c.mount.publishHead true (orphanNext c.mount.cur c.mount.cur.lastOrphan)).cur
            c.mount.cur.lastOrphan now } f.txn (some e) 0 0 = (some (some e), c') ∧
      c'.mount.cur.lastOrphan = orphanNext c.mount.cur c.mount.cur.lastOrphan ∧
      (c'.mount.cur.inodes c.mount.cur.lastOrphan).inUse = true ∧
      (∀ i, i ≠ c.mount.cur.lastOrphan → c'.mount.cur.inodes i = c.mount.cur.inodes i) ∧
      (∀ i, orphanPlausible c'.mount.cur i = orphanPlausible c.mount.cur i) := by
    intro e
    have hdisk : c.mount.journal = true → c.mount.txnOps = 0 →
        (c.mount.publishHead true
          (orphanNext c.mount.cur c.mount.cur.lastOrphan)).disk = c.mount.cur := by
      intro hjournal hops
      refine Eq.trans (if_pos ?_) (hsync.2 hjournal hops)
      rw [hjournal]
      rfl
    obtain ⟨c', heq, hcur⟩ := cleanupFinish_failed (c := c)
      (m := { c.mount.publishHead true (orphanNext c.mount.cur c.mount.cur.lastOrphan) with
        cur := orphanSetNext
          (c.mount.publishHead true (orphanNext c.mount.cur c.mount.cur.lastOrphan)).cur
            c.mount.cur.lastOrphan now }) hcommit hdisk e
    refine ⟨c', heq, ?_⟩
    rcases hcur with hcur | hcur
    · rw [hcur]
      refine ⟨rfl, ?_, fun i hi => ?_, fun _ => rfl⟩
      · dsimp only
        unfold orphanSetNext
        rw [Volume.modify_self]
        exact horphan.1
      · dsimp only
        unfold orphanSetNext
        rw [Volume.modify_of_ne _ _ _ hi]
        rfl
    · rw [hcur]
      exact ⟨rfl, horphan.1, fun _ _ => rfl, fun _ => rfl⟩
  cases hfault : f.free with
  | some e => exact ⟨e, hfinish e⟩
  | none =>
      dsimp only
      have hinode : (c.mount.publishHead true
          (orphanNext c.mount.cur c.mount.cur.lastOrphan)).cur.inodes c.mount.cur.lastOrphan =
            c.mount.cur.inodes c.mount.cur.lastOrphan := rfl
      unfold freeInode
      rw [hinode, if_neg fun htruncate => hfails ⟨hpublish, hfault, htruncate⟩]
      exact ⟨Errno.EINVAL, hfinish Errno.EINVAL⟩

end Turn

end Ext4b

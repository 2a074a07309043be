import OpenExt4.Bridge.OrphanList

set_option autoImplicit false

/-! # The orphan list over runs

What any sequence of deferred deletions, renames, releases and turns of the cleanup does to the
list, in memory and as the committed transactions leave it. -/

namespace Ext4b

open Chain

/-! ## Calls and runs -/

/-- A call that edits the list, or frees what might be on it. -/
inductive OrphanCall where
  | unlink (t : TxnEnv) (env : Env) (parent : ℕ) (name : Name)
  | rename (t : TxnEnv) (env : Env) (srcParent : ℕ) (srcName : Name) (dstParent : ℕ)
      (dstName : Name)
  | release (t₁ t₂ : TxnEnv) (now ino : ℕ)
  | cleanup (f : Faults) (now : ℕ)

/-- The mounts behind the transactions of the call. -/
def OrphanCall.mounts (m : Mount) : OrphanCall → List Mount
  | .unlink t env parent name => [(unlinkDeferred m t env parent name).2]
  | .rename t env srcParent srcName dstParent dstName =>
      [(renameInTxn m t env srcParent srcName dstParent dstName).2]
  | .release t₁ t₂ now ino => releaseInode m t₁ t₂ now ino
  | .cleanup f now => [(cleanupTurn ⟨m, 0, 0⟩ f now).2.mount]

/-- The mount the call leaves. -/
def OrphanCall.after (m : Mount) (call : OrphanCall) : Mount := (call.mounts m).getLastD m

/-- The inode the call adds to the list, takes off it or frees. -/
def OrphanCall.subject (m : Mount) : OrphanCall → ℕ
  | .unlink _ _ parent name => (findEntry m.cur (m.cur.inodes parent) name).getD 0
  | .rename _ _ _ _ dstParent dstName =>
      (findEntry m.cur (m.cur.inodes dstParent) dstName).getD 0
  | .release _ _ _ ino => ino
  | .cleanup .. => m.cur.lastOrphan

/-- The walk of `orphan_del` reaches the inode before this one. -/
def WithinWalk (v : Volume) (ino : ℕ) : Prop :=
  ∃ a p b, IsChain (fun i => (v.inodes i).delTime) v.lastOrphan (a ++ p :: ino :: b) ∧
    a.length < ORPHAN_WALK_LIMIT

/-- A release that does no harm. The head is released in one transaction: it can be truncated, or
    the failure takes nothing with it. Another inode of the list is taken off in a transaction of
    its own, which must not be committed before the one that frees the inode; the walk must find it,
    and it must be one that can be freed. An inode that is not on the list must have no deletion
    time, if there is a list. -/
def ReleaseSafe (m : Mount) (t₁ t₂ : TxnEnv) (ino : ℕ) : Prop :=
  t₂.commit = none ∧
    if m.cur.lastOrphan = ino then
      t₂.flush = none ∧ (canTruncate (m.cur.inodes ino) = true ∨ m.txnOps = 0)
    else
      t₁.commit = none ∧
      ((m.cur.inodes ino).Orphaned → canTruncate (m.cur.inodes ino) = true) ∧
      (m.cur.lastOrphan ≠ 0 → ¬ m.cur.Orphan ino → (m.cur.inodes ino).delTime = 0) ∧
      (m.cur.Orphan ino → WithinWalk m.cur ino ∧ m.txnOps + 1 < m.txnBatch ∧ t₁.full = false)

/-- A call that does no harm. Its commits take place; what it removes is an allocated inode with
    links; a file is renamed; what it frees can be truncated, or the failure takes nothing with
    it. -/
def OrphanCall.Safe (m : Mount) : OrphanCall → Prop
  | .unlink t _ parent name =>
      t.commit = none ∧ ∀ child, findEntry m.cur (m.cur.inodes parent) name = some child →
        orphanPlausible m.cur child = true ∧ (m.cur.inodes child).inUse = true ∧
          (m.cur.inodes child).linksCnt ≠ 0 ∧
          (t.flush = none ∨ (m.cur.inodes child).type ≠ .dir ∧ 1 < (m.cur.inodes child).linksCnt)
  | .rename t _ srcParent srcName dstParent dstName =>
      t.commit = none ∧
      (∀ child, findEntry m.cur (m.cur.inodes srcParent) srcName = some child →
        (m.cur.inodes child).type ≠ .dir) ∧
      ∀ victim, findEntry m.cur (m.cur.inodes dstParent) dstName = some victim →
        findEntry m.cur (m.cur.inodes srcParent) srcName ≠ some victim →
          (m.cur.inodes victim).inUse = true ∧ (m.cur.inodes victim).linksCnt ≠ 0 ∧
            ((m.cur.inodes victim).linksCnt = 1 →
              canTruncate (m.cur.inodes victim) = true ∨ m.txnOps = 0)
  | .release t₁ t₂ _ ino => ino < rootIno ∨ ReleaseSafe m t₁ t₂ ino
  | .cleanup f _ =>
      m.cur.lastOrphan ≠ 0 → f.txn.commit = none ∧ (f.reads → f.publish = none ∧ f.free = none ∧
        canTruncate (m.cur.inodes m.cur.lastOrphan) = true)

/-- A sequence of calls that do no harm. -/
inductive OrphanRun : Mount → Mount → Prop
  | refl (m : Mount) : OrphanRun m m
  | step {m m' : Mount} (call : OrphanCall) :
      OrphanRun m m' → call.Safe m' → OrphanRun m (call.after m')

/-- A mount with a journal whose list is right, in memory and on the disk. -/
structure Mount.Consistent (m : Mount) : Prop where
  journal : m.journal = true
  synced : m.Synced
  cur : OrphanList m.cur
  disk : OrphanList m.disk

/-- The call leaves the list right and everything else alone. -/
def Keeps (m w : Mount) (c : ℕ) : Prop := w.Consistent ∧ Frame m.cur w.cur c

section Calls

variable {m : Mount} {t : TxnEnv}

/-! ## Transactions -/

theorem finish_consistent (hjournal : m.journal = true) (hblock : m.sbBlock = m.cur.lastOrphan)
    (hcur : OrphanList m.cur) (hdisk : OrphanList m.disk) (hcommit : t.commit = none) :
    (txnFinish m t none).2.Consistent ∧ (txnFinish m t none).2.cur = m.cur := by
  obtain ⟨hsame, hsync, ⟨hjournal', hfollows⟩, -⟩ := txnFinish_ok hcommit hblock
  refine ⟨⟨hjournal'.trans hjournal, hsync, hsame.symm ▸ hcur, ?_⟩, hsame⟩
  rcases hfollows hjournal with heq | heq
  · exact heq.symm ▸ hdisk
  · exact heq.symm ▸ hsame.symm ▸ hcur

/-- What a failed call leaves goes with its transaction, or, in a batch, is committed with it. -/
theorem fail_consistent (h : m.Consistent) {w : Volume} (hlast : w.lastOrphan = m.cur.lastOrphan)
    (hw : m.txnOps ≠ 0 → OrphanList w) (hcommit : t.commit = none) (e : Errno) :
    (txnFinish { m with cur := w } t (some e)).2.Consistent ∧
      ((txnFinish { m with cur := w } t (some e)).2.cur = m.cur ∨
        m.txnOps ≠ 0 ∧ (txnFinish { m with cur := w } t (some e)).2.cur = w) := by
  obtain ⟨hjournal, ⟨hblock, hdisk⟩, hlist, hlist'⟩ := h
  unfold txnFinish
  dsimp only
  split
  · next hops =>
    have hsame := hdisk hjournal hops
    have hcur : { m.disk with lastOrphan := w.lastOrphan } = m.cur := by rw [hlast, hsame]
    unfold Mount.abort
    rw [if_pos hjournal]
    refine ⟨⟨hjournal, ⟨?_, fun _ _ => hsame.trans hcur.symm⟩, hcur.symm ▸ hlist, hlist'⟩,
      .inl hcur⟩
    dsimp only
    rw [hlast, hsame]
  · next hops =>
    rw [hcommit]
    have hcur : { w with lastOrphan := m.sbBlock } = w := by rw [hblock, ← hlast]
    exact ⟨⟨hjournal, ⟨hblock.trans hlast.symm, fun _ _ => hcur⟩, hw hops, hcur.symm ▸ hw hops⟩,
      .inr ⟨hops, rfl⟩⟩

/-- A transaction of the journal that moves the head. -/
theorem publish_keeps (h : m.Consistent) {w : Volume} {c : ℕ} (hw : OrphanList w)
    (hframe : Frame m.cur w c) (hcommit : t.commit = none) :
    Keeps m (txnFinish { m.publishHead true w.lastOrphan with cur := w } t none).2 c := by
  have hdisk : (m.publishHead true w.lastOrphan).disk = m.disk := by
    refine if_pos ?_
    rw [h.journal]
    rfl
  obtain ⟨hcons, hcur⟩ := finish_consistent
    (m := { m.publishHead true w.lastOrphan with cur := w }) h.journal rfl hw
    (hdisk.symm ▸ h.disk) hcommit
  exact ⟨hcons, hcur.symm ▸ hframe⟩

theorem finish_keeps (h : m.Consistent) {w : Volume} {c : ℕ}
    (hlast : w.lastOrphan = m.cur.lastOrphan) (hw : OrphanList w) (hframe : Frame m.cur w c)
    (hcommit : t.commit = none) : Keeps m (txnFinish { m with cur := w } t none).2 c := by
  obtain ⟨hcons, hcur⟩ := finish_consistent (m := { m with cur := w }) h.journal
    (h.synced.1.trans hlast.symm) hw h.disk hcommit
  exact ⟨hcons, hcur.symm ▸ hframe⟩

theorem fail_keeps (h : m.Consistent) {w : Volume} {c : ℕ}
    (hlast : w.lastOrphan = m.cur.lastOrphan) (hw : m.txnOps ≠ 0 → OrphanList w)
    (hframe : m.txnOps ≠ 0 → Frame m.cur w c) (hcommit : t.commit = none) (e : Errno) :
    Keeps m (txnFinish { m with cur := w } t (some e)).2 c := by
  obtain ⟨hcons, hcur | ⟨hops, hcur⟩⟩ := fail_consistent h hlast hw hcommit e
  · exact ⟨hcons, hcur.symm ▸ .refl _ _⟩
  · exact ⟨hcons, hcur.symm ▸ hframe hops⟩

theorem Keeps.refl (h : m.Consistent) (c : ℕ) : Keeps m m c := ⟨h, .refl _ _⟩

/-! ## Calls -/

/-- The edit of `ext4b_unlink_ex` that makes an inode the head of the list. -/
theorem join_facts (v : Volume) (c next : ℕ) :
    ∃ x, { orphanSetNext v c next with lastOrphan := c } = x ∧ AlikeOff v x c ∧
      x.inodes c = { v.inodes c with delTime := next } ∧ x.lastOrphan = c := by
  refine ⟨_, rfl, ⟨fun _ => rfl, fun i hi => ?_⟩, ?_, rfl⟩
  · dsimp only
    unfold orphanSetNext
    rw [Volume.modify_of_ne _ _ _ hi]
    exact .refl _
  · dsimp only
    unfold orphanSetNext
    rw [Volume.modify_self]

/-- **Deletion**: the inode that lost its last name goes in front of the list. -/
theorem unlinkDeferred_keeps (h : m.Consistent) {env : Env} {parent : ℕ} {name : Name}
    (hsafe : (OrphanCall.unlink t env parent name).Safe m) :
    Keeps m (unlinkDeferred m t env parent name).2
      ((findEntry m.cur (m.cur.inodes parent) name).getD 0) := by
  obtain ⟨hcommit, hchild⟩ := hsafe
  unfold unlinkDeferred
  split
  · exact .refl h _
  rcases unlinkEx_cases m.cur env parent name true with ⟨e, herror⟩ |
    ⟨child, w, hfound, hunlinks, hor⟩
  · rw [herror]
    exact fail_keeps h rfl (fun _ => h.cur) (fun _ => .refl _ _) hcommit e
  obtain ⟨husable, hused, hlinks, hflush⟩ := hchild child hfound
  have hold : ¬ m.cur.Orphan child := fun hn => hlinks hn.2.2
  rw [hfound, Option.getD_some]
  rcases hor with ⟨hzero, hok⟩ | ⟨hzero, hok⟩
  · obtain ⟨x, hx, hjoin, hinode, hhead⟩ := join_facts w child w.lastOrphan
    rw [if_pos rfl, hx] at hok
    have hoff : AlikeOff m.cur x child := hunlinks.off.trans hjoin
    have hnew : x.Orphan child := by
      refine ⟨(hoff.usable child).trans husable, ?_⟩
      rw [hinode]
      exact ⟨hunlinks.inUse.trans hused, hzero⟩
    have hlist : OrphanList x := by
      refine h.cur.push hoff hold hnew hhead ?_
      rw [hinode]
      exact hunlinks.lastOrphan
    have hnoFlush : t.flush = none := by
      refine hflush.resolve_right fun ⟨hfile, hmore⟩ => ?_
      have := hunlinks.linksCnt hfile
      omega
    have hr := txnFinish_none (m := { m.publishHead true x.lastOrphan with cur := x })
      hcommit hnoFlush
    have hkeeps := publish_keeps h hlist (hoff.frame fun _ hno => absurd hnew hno) hcommit
    rw [hok]
    dsimp only
    rw [if_pos rfl, if_neg fun hn => hn.1 hr]
    exact hkeeps
  · have hsame : SameOrphans m.cur w := hunlinks.off.same hunlinks.lastOrphan
      (iff_of_false (fun hn => hzero hn.2.2) hold) fun _ => hunlinks.delTime
    rw [hok]
    dsimp only
    rw [if_neg Bool.false_ne_true, if_neg fun hn => Bool.false_ne_true hn.2]
    exact finish_keeps h hunlinks.lastOrphan (h.cur.same hsame) (hsame.frame child) hcommit

/-- **A rename of a file** leaves the list as it is. -/
theorem renameInTxn_keeps (h : m.Consistent) {env : Env} {srcParent dstParent : ℕ}
    {srcName dstName : Name}
    (hsafe : (OrphanCall.rename t env srcParent srcName dstParent dstName).Safe m) (c : ℕ) :
    Keeps m (renameInTxn m t env srcParent srcName dstParent dstName).2 c := by
  obtain ⟨hcommit, hfile, hvictim⟩ := hsafe
  unfold renameInTxn
  split
  · exact .refl h _
  rcases rename_same env hfile fun victim hdst hne =>
    ⟨(hvictim victim hdst hne).1, (hvictim victim hdst hne).2.1⟩ with hstuck | hsame
  · obtain ⟨⟨victim, hdst, hne, hlast, hno⟩, e, w, herror, hhead⟩ := hstuck
    have hops := ((hvictim victim hdst hne).2.2 hlast).resolve_left fun hn =>
      Bool.false_ne_true (hno.symm.trans hn)
    rw [herror]
    exact fail_keeps h hhead (absurd hops) (absurd hops) hcommit e
  · cases hrename : rename m.cur env srcParent srcName dstParent dstName with
    | error ew =>
        obtain ⟨e, w⟩ := ew
        rw [hrename] at hsame
        exact fail_keeps h hsame.lastOrphan (fun _ => h.cur.same hsame)
          (fun _ => hsame.frame c) hcommit e
    | ok w =>
        rw [hrename] at hsame
        exact finish_keeps h hsame.lastOrphan (h.cur.same hsame) (hsame.frame c) hcommit

/-! ## Release -/

/-- The head is an orphan. -/
theorem OrphanList.head_orphan {v : Volume} (h : OrphanList v) (hne : v.lastOrphan ≠ 0) :
    v.Orphan v.lastOrphan := by
  obtain ⟨l, hchain, -, hmem⟩ := h
  generalize hhead : v.lastOrphan = head at hchain hne
  cases hchain with
  | nil => exact absurd rfl hne
  | cons _ _ => exact (hmem head).mp List.mem_cons_self

/-- The chain from the head is the list. -/
theorem OrphanList.mem_iff {v : Volume} (h : OrphanList v) {l : List ℕ}
    (hchain : IsChain (fun i => (v.inodes i).delTime) v.lastOrphan l) (i : ℕ) :
    i ∈ l ↔ v.Orphan i := by
  obtain ⟨l, hchain', -, hmem⟩ := h
  rw [hchain.unique hchain']
  exact hmem i

/-- The head goes with its inode. -/
theorem releaseFree_head_keeps (h : m.Consistent) (now : ℕ) {ino : ℕ} (hino : ino ≠ 0)
    (hhead : m.cur.lastOrphan = ino) (hcommit : t.commit = none) (hflush : t.flush = none)
    (htruncate : canTruncate (m.cur.inodes ino) = true ∨ m.txnOps = 0) :
    Keeps m (releaseFree m t now ino true).2 ino := by
  have horphan : m.cur.Orphan ino := hhead ▸ h.cur.head_orphan (hhead.symm ▸ hino)
  unfold releaseFree
  dsimp only
  rw [if_neg (not_not.mpr horphan.2.2),
    if_neg fun hn => Bool.false_ne_true (hn.symm.trans horphan.2.1)]
  rcases freeInode_cases m.cur now ino with ⟨-, hfree⟩ | ⟨hno, hfree⟩
  · rw [hfree]
    obtain ⟨w, hw⟩ : ∃ w, { m.cur.modify ino (freedInode now) with
      lastOrphan := orphanNext m.cur ino } = w := ⟨_, rfl⟩
    have hoff : AlikeOff m.cur w ino := by
      rw [← hw]
      exact ⟨fun _ => rfl, (AlikeOff.modify_self (freedInode now)).inodes⟩
    have hgone : ¬ w.Orphan ino := by
      rw [← hw]
      intro hn
      have huse := hn.2.1
      dsimp only at huse
      rw [Volume.modify_self] at huse
      cases huse
    have hlist : OrphanList w := by
      refine h.cur.pop (hhead.symm ▸ hino) (hhead.symm ▸ hoff) (hhead.symm ▸ hgone) ?_
      rw [hhead, ← hw]
    have hkeeps := publish_keeps (t := t) h hlist
      (hoff.frame fun hno => absurd horphan hno) hcommit
    have hr := txnFinish_none (m := { m.publishHead true w.lastOrphan with cur := w })
      hcommit hflush
    subst hw
    dsimp only
    rw [if_pos rfl]
    refine (congrArg (Keeps m · ino) (congrArg Prod.snd (if_neg fun hn => hn.1 hr))).mpr hkeeps
  · have hops := htruncate.resolve_left fun hn => Bool.false_ne_true (hno.symm.trans hn)
    rw [hfree]
    obtain ⟨hcons, hcur⟩ := fail_consistent (t := t) (w := orphanSetNext m.cur ino now) h rfl
      (absurd hops) hcommit Errno.EINVAL
    replace hcur := hcur.resolve_right fun hn => hn.1 hops
    dsimp only
    rw [if_pos rfl]
    generalize (txnFinish _ t (some Errno.EINVAL)).2 = m' at hcons hcur ⊢
    have hsame : { m' with cur := { m'.cur with lastOrphan := ino } } = m' := by
      rw [hcur, ← hhead, ← hcur]
    rw [hsame]
    exact ⟨hcons, hcur.symm ▸ .refl _ _⟩

/-- An inode that is on no list is freed, if it is to be, without the list. -/
theorem releaseFree_keeps (h : m.Consistent) (now : ℕ) {ino : ℕ} (hoff : ¬ m.cur.Orphan ino)
    (hcommit : t.commit = none)
    (htruncate : (m.cur.inodes ino).Orphaned → canTruncate (m.cur.inodes ino) = true) :
    Keeps m (releaseFree m t now ino false).2 ino := by
  unfold releaseFree
  dsimp only
  split
  · exact fail_keeps h rfl (fun _ => h.cur) (fun _ => .refl _ _) hcommit Errno.EBUSY
  next hlinks =>
  split
  · exact finish_keeps h rfl h.cur (.refl _ _) hcommit
  next hused =>
  have hused' := eq_true_of_ne_false hused
  unfold freeInode
  rw [if_pos (htruncate ⟨hused', not_not.mp hlinks⟩)]
  have hgone : ((m.cur.modify ino (freedInode now)).inodes ino).inUse = false := by
    rw [Volume.modify_self]
    rfl
  have hsame : SameOrphans m.cur (m.cur.modify ino (freedInode now)) := by
    refine (AlikeOff.modify_self _).same rfl (iff_of_false (fun hn => ?_) hoff) fun huse => ?_
    · exact Bool.false_ne_true (hgone.symm.trans hn.2.1)
    · exact absurd (hgone.symm.trans (huse.trans hused')) Bool.false_ne_true
  dsimp only
  rw [if_neg Bool.false_ne_true, if_neg fun hn => Bool.false_ne_true hn.2]
  exact finish_keeps h hsame.lastOrphan (h.cur.same hsame) (hsame.frame ino) hcommit

/-- What is on no list and has no deletion time, `orphan_del` leaves alone. -/
theorem orphanDel_off (h : m.Consistent) {ino : ℕ} (hino : ino ≠ 0)
    (hne : m.cur.lastOrphan ≠ ino) (hoff : ¬ m.cur.Orphan ino)
    (htime : m.cur.lastOrphan ≠ 0 → (m.cur.inodes ino).delTime = 0) (hcommit : t.commit = none) :
    (orphanDel m t ino).2.Consistent ∧ (orphanDel m t ino).2.cur = m.cur := by
  unfold orphanDel
  dsimp only
  by_cases hlist : m.cur.lastOrphan = 0
  · rw [if_pos (.inl hlist)]
    exact ⟨h, rfl⟩
  obtain ⟨l, hchain, -, hmem⟩ := h.cur
  have hsame : orphanSetNext m.cur ino 0 = m.cur := by
    refine Volume.modify_eq_self _ _ _ ?_
    rw [← htime hlist]
  rw [if_neg (not_or.mpr ⟨hlist, hino⟩), if_neg hne, hsame,
    closeOver_eq_self hchain (fun hn => hoff ((hmem ino).mp hn)) hino]
  exact finish_consistent h.journal h.synced.1 h.cur h.disk hcommit

/-- An inode in the middle of the list is taken off in a transaction of its own. -/
theorem orphanDel_middle {ino p : ℕ} {a b : List ℕ}
    (hne : m.cur.lastOrphan ≠ ino)
    (hchain : IsChain (fun i => (m.cur.inodes i).delTime) m.cur.lastOrphan (a ++ p :: ino :: b))
    (hmem : ∀ i, i ∈ a ++ p :: ino :: b ↔ m.cur.Orphan i) (hwalk : a.length < ORPHAN_WALK_LIMIT)
    (hroom : m.txnOps + 1 < m.txnBatch) (hfull : t.full = false) :
    orphanDel m t ino = (none, { m with
      cur := orphanSetNext (orphanSetNext m.cur ino 0) p (orphanNext m.cur ino)
      txnOps := m.txnOps + 1 }) := by
  have hino : ino ≠ 0 := fun hn => hchain.ne_zero (hn ▸ by simp)
  have hhead : m.cur.lastOrphan ≠ 0 := fun hn => by
    rw [hn] at hchain
    have := hchain.eq_nil
    simp at this
  have hsplit : a ++ p :: ino :: b = (a ++ [p]) ++ ino :: b := by
    rw [List.append_assoc, List.singleton_append]
  have hbefore : ino ∉ a ++ [p] := by
    have hnodup := hchain.nodup
    rw [hsplit, List.nodup_append] at hnodup
    exact fun hn => hnodup.2.2 ino hn ino List.mem_cons_self rfl
  have hclose := closeOver_eq (orphanNext m.cur ino) hchain
    (fun i hi => ((hmem i).mp (hsplit ▸ List.mem_append_left _ hi)).1) hbefore hwalk
  unfold orphanDel
  dsimp only
  rw [if_neg (not_or.mpr ⟨hhead, hino⟩), if_neg hne, hclose]
  exact if_pos ⟨hroom, hfull⟩

/-- The two edits of a release in the middle of the list, and the end of the inode. -/
theorem released_facts (v : Volume) {c p : ℕ} (next now : ℕ) (hne : c ≠ p) :
    ∃ x, (orphanSetNext (orphanSetNext v c 0) p next).modify c (freedInode now) = x ∧
      AlikeOff (orphanSetNext v p next) x c ∧ ¬ x.Orphan c ∧
      (∀ i, orphanPlausible x i = orphanPlausible v i) ∧
      (x.inodes p).Orphaned = (v.inodes p).Orphaned ∧
      ∀ i, i ≠ c → i ≠ p → x.inodes i = v.inodes i := by
  unfold orphanSetNext
  have hrest : ∀ i, i ≠ c → i ≠ p →
      (((v.modify c fun d => { d with delTime := 0 }).modify p
        fun d => { d with delTime := next }).modify c (freedInode now)).inodes i = v.inodes i := by
    intro i hi hip
    rw [Volume.modify_of_ne _ _ _ hi, Volume.modify_of_ne _ _ _ hip, Volume.modify_of_ne _ _ _ hi]
  have hp : (((v.modify c fun d => { d with delTime := 0 }).modify p
      fun d => { d with delTime := next }).modify c (freedInode now)).inodes p =
        { v.inodes p with delTime := next } := by
    rw [Volume.modify_of_ne _ _ _ hne.symm, Volume.modify_self, Volume.modify_of_ne _ _ _ hne.symm]
  refine ⟨_, rfl, ⟨fun _ => rfl, fun i hi => ?_⟩, fun hn => ?_, fun _ => rfl, ?_, hrest⟩
  · by_cases hip : i = p
    · subst hip
      rw [hp, Volume.modify_self]
      exact .refl _
    · rw [hrest i hi hip, Volume.modify_of_ne _ _ _ hip]
      exact .refl _
  · have huse := hn.2.1
    rw [Volume.modify_self] at huse
    cases huse
  · rw [hp]
    rfl

/-- The second transaction of a release in the middle of the list, while the first is not
    committed. -/
theorem releaseFree_middle_keeps (h : m.Consistent) (now : ℕ) {ino p : ℕ} {a b : List ℕ}
    (horphan : m.cur.Orphan ino)
    (hchain : IsChain (fun i => (m.cur.inodes i).delTime) m.cur.lastOrphan (a ++ p :: ino :: b))
    (htruncate : canTruncate (m.cur.inodes ino) = true) (hcommit : t.commit = none) (ops : ℕ) :
    Keeps m (releaseFree { m with
      cur := orphanSetNext (orphanSetNext m.cur ino 0) p (orphanNext m.cur ino)
      txnOps := ops } t now ino false).2 ino := by
  have hmem := h.cur.mem_iff hchain
  have hne : ino ≠ p := by
    have hnodup := hchain.nodup
    rw [List.nodup_append, List.nodup_cons] at hnodup
    exact fun heq => hnodup.2.1.1 (heq ▸ List.mem_cons_self)
  have hinode : (orphanSetNext (orphanSetNext m.cur ino 0) p (orphanNext m.cur ino)).inodes ino =
      { m.cur.inodes ino with delTime := 0 } := by
    unfold orphanSetNext
    rw [Volume.modify_of_ne _ _ _ hne, Volume.modify_self]
  obtain ⟨x, hx, hoff, hgone, husable, hp, hrest⟩ :=
    released_facts m.cur (orphanNext m.cur ino) now hne
  have hlast : x.lastOrphan = m.cur.lastOrphan := hx ▸ rfl
  have hlist : OrphanList x := OrphanList.unlink hchain hmem hoff hgone hlast
  have hframe : Frame m.cur x ino := by
    refine ⟨fun i hi => ?_, fun i hold _ _ => ?_⟩
    · unfold Volume.Orphan
      rw [husable]
      by_cases hip : i = p
      · rw [hip, hp]
      · rw [hrest i hi hip]
    · rw [hrest i (fun hi => hold (hi ▸ horphan)) fun hip => hold ((hmem i).mp ?_)]
      exact hip ▸ List.mem_append_right _ List.mem_cons_self
  obtain ⟨hcons, hcur⟩ := finish_consistent (m := { m with cur := x, txnOps := ops }) h.journal
    (h.synced.1.trans hlast.symm) hlist h.disk hcommit
  have htruncate' : canTruncate { m.cur.inodes ino with delTime := 0 } = true := htruncate
  unfold releaseFree freeInode
  dsimp only
  rw [hinode, if_neg (not_not.mpr horphan.2.2),
    if_neg fun hn => Bool.false_ne_true (hn.symm.trans horphan.2.1), if_pos htruncate']
  dsimp only
  rw [hx, if_neg Bool.false_ne_true, if_neg fun hn => Bool.false_ne_true hn.2]
  exact ⟨hcons, hcur.symm ▸ hframe⟩

/-- **Release** of an inode by its two transactions. -/
theorem releaseInode_keeps (h : m.Consistent) {t₁ t₂ : TxnEnv} {now ino : ℕ}
    (hsafe : (OrphanCall.release t₁ t₂ now ino).Safe m) :
    (∀ w ∈ releaseInode m t₁ t₂ now ino, OrphanList w.disk) ∧
      Keeps m ((releaseInode m t₁ t₂ now ino).getLastD m) ino := by
  unfold releaseInode
  by_cases hsmall : ino < rootIno
  · rw [if_pos hsmall]
    exact ⟨fun w hw => List.mem_singleton.mp hw ▸ h.disk, .refl h _⟩
  obtain ⟨hcommit₂, hsafe⟩ := hsafe.resolve_left hsmall
  have hino : ino ≠ 0 := fun hn => hsmall (hn ▸ by decide)
  rw [if_neg hsmall]
  by_cases hhead : m.cur.lastOrphan = ino
  · rw [if_pos hhead] at hsafe ⊢
    have hkeeps := releaseFree_head_keeps h now hino hhead hcommit₂ hsafe.1 hsafe.2
    exact ⟨fun w hw => List.mem_singleton.mp hw ▸ hkeeps.1.disk, hkeeps⟩
  rw [if_neg hhead] at hsafe ⊢
  obtain ⟨hcommit₁, htruncate, htime, hmiddle⟩ := hsafe
  by_cases horphan : m.cur.Orphan ino
  · obtain ⟨⟨a, p, b, hchain, hwalk⟩, hroom, hfull⟩ := hmiddle horphan
    have hmem := h.cur.mem_iff hchain
    rw [orphanDel_middle hhead hchain hmem hwalk hroom hfull]
    have hkeeps := releaseFree_middle_keeps (t := t₂) h now horphan hchain
      (htruncate horphan.2) hcommit₂ (m.txnOps + 1)
    refine ⟨fun w hw => ?_, hkeeps⟩
    rcases List.mem_cons.mp hw with rfl | hw
    · exact h.disk
    · exact List.mem_singleton.mp hw ▸ hkeeps.1.disk
  · obtain ⟨hcons, hcur⟩ := orphanDel_off h hino hhead horphan (fun hn => htime hn horphan) hcommit₁
    generalize orphanDel m t₁ ino = x at hcons hcur
    obtain ⟨r, m₁⟩ := x
    have hkeeps₁ : Keeps m m₁ ino := ⟨hcons, hcur.symm ▸ .refl _ _⟩
    cases r with
    | some e => exact ⟨fun w hw => List.mem_singleton.mp hw ▸ hcons.disk, hkeeps₁⟩
    | none =>
        dsimp only at hcons hcur ⊢
        have hkeeps := releaseFree_keeps (t := t₂) hcons now
          (hcur.symm ▸ horphan) hcommit₂ (hcur.symm ▸ htruncate)
        refine ⟨fun w hw => ?_, hkeeps.1, hcur ▸ hkeeps.2⟩
        rcases List.mem_cons.mp hw with rfl | hw
        · exact hcons.disk
        · exact List.mem_singleton.mp hw ▸ hkeeps.1.disk

/-! ## Cleanup and runs -/

/-- **A turn of the cleanup** takes the head off and frees its inode. -/
theorem cleanupTurn_keeps (h : m.Consistent) {f : Faults} {now : ℕ}
    (hsafe : (OrphanCall.cleanup f now).Safe m) :
    Keeps m (cleanupTurn ⟨m, 0, 0⟩ f now).2.mount m.cur.lastOrphan := by
  by_cases hhead : m.cur.lastOrphan = 0
  · have hturn : cleanupTurn ⟨m, 0, 0⟩ f now = (some none, ⟨m, 0, 0⟩) := if_pos hhead
    rw [hturn]
    exact .refl h _
  obtain ⟨hcommit, hfree⟩ := hsafe hhead
  have horphan := h.cur.head_orphan hhead
  obtain ⟨r, c', hturn, hturned⟩ := cleanupTurn_turned (c := ⟨m, 0, 0⟩) (f := f) now h.synced
    horphan.1 hcommit fun hreads _ _ => (hfree hreads).2
  have hdisk : m.Follows c'.mount → OrphanList c'.mount.cur → OrphanList c'.mount.disk := by
    intro hfollows hcur
    rcases hfollows.2 h.journal with heq | heq
    · exact heq.symm ▸ h.disk
    · exact heq.symm ▸ hcur
  rw [hturn]
  cases hturned with
  | unread _ hsame hsync hfollows =>
      have hcur : OrphanList c'.mount.cur := hsame.symm ▸ h.cur
      exact ⟨⟨hfollows.1.trans h.journal, hsync, hcur, hdisk hfollows hcur⟩,
        hsame.symm ▸ .refl _ _⟩
  | unwritten hreads hpublish _ => exact absurd (hfree hreads).1 hpublish
  | taken _ _ hsync hfollows hsame _ =>
      have hoff : AlikeOff m.cur (takeTurn m.cur now) m.cur.lastOrphan :=
        ⟨fun _ => rfl, (AlikeOff.modify_self (settled now)).inodes⟩
      have hgone : ¬ (takeTurn m.cur now).Orphan m.cur.lastOrphan := by
        intro hn
        have huse := hn.2.1
        unfold takeTurn at huse
        dsimp only at huse
        rw [Volume.modify_self, settled_of_orphaned horphan.2] at huse
        cases huse
      have hcur : OrphanList c'.mount.cur := by
        rw [hsame]
        exact h.cur.pop hhead hoff hgone rfl
      refine ⟨⟨hfollows.1.trans h.journal, hsync, hcur, hdisk hfollows hcur⟩, ?_⟩
      rw [hsame]
      exact hoff.frame fun hno => absurd horphan hno

/-- **Every call that does no harm** leaves the list right, behind each of its transactions. -/
theorem OrphanCall.keeps (h : m.Consistent) {call : OrphanCall} (hsafe : call.Safe m) :
    (∀ w ∈ call.mounts m, OrphanList w.disk) ∧ Keeps m (call.after m) (call.subject m) := by
  have hone : ∀ w c, Keeps m w c →
      (∀ x ∈ [w], OrphanList x.disk) ∧ Keeps m ([w].getLastD m) c :=
    fun w c hw => ⟨fun x hx => List.mem_singleton.mp hx ▸ hw.1.disk, hw⟩
  cases call with
  | unlink t env parent name => exact hone _ _ (unlinkDeferred_keeps h hsafe)
  | rename t env srcParent srcName dstParent dstName =>
      exact hone _ _ (renameInTxn_keeps h hsafe _)
  | release t₁ t₂ now ino => exact releaseInode_keeps h hsafe
  | cleanup f now => exact hone _ _ (cleanupTurn_keeps h hsafe)

end Calls

theorem OrphanRun.consistent {m₀ m : Mount} (h : OrphanRun m₀ m) (hstart : m₀.Consistent) :
    m.Consistent := by
  induction h with
  | refl => exact hstart
  | step call _ hsafe ih => exact (OrphanCall.keeps ih hsafe).2.1

/-- The list leads from inode 12 to inode 13, both removed while open. -/
def pairVolume : Volume where
  inodes i :=
    if i = 12 then { freshInode .file with delTime := 13 }
    else if i = 13 then freshInode .file
    else { freshInode .file with inUse := false }
  inodesCount := 16
  firstInode := 11
  lastOrphan := 12
  dirIndex := false

/-- The volume as it is mounted, with a journal that collects so many calls. -/
def pairMount (txnBatch : ℕ) : Mount := ⟨true, pairVolume, 12, pairVolume, 0, txnBatch⟩

theorem pairVolume_orphan {i : ℕ} (h : pairVolume.Orphan i) : i = 12 ∨ i = 13 := by
  by_contra hne
  rw [not_or] at hne
  have huse := h.2.1
  unfold pairVolume at huse
  dsimp only at huse
  rw [if_neg hne.1, if_neg hne.2] at huse
  cases huse

theorem pairVolume_chain :
    IsChain (fun i => (pairVolume.inodes i).delTime) pairVolume.lastOrphan [12, 13] :=
  .cons (by decide) (.cons (by decide) .nil)

theorem pairMount_consistent (txnBatch : ℕ) : (pairMount txnBatch).Consistent := by
  have hlist : OrphanList pairVolume := by
    refine ⟨[12, 13], pairVolume_chain, by decide, fun i => ⟨fun hmem => ?_, fun horphan => ?_⟩⟩
    · rcases List.mem_pair.mp hmem with rfl | rfl <;> exact ⟨rfl, rfl, rfl⟩
    · exact List.mem_pair.mpr (pairVolume_orphan horphan)
  exact ⟨rfl, ⟨rfl, fun _ _ => rfl⟩, hlist, hlist⟩

/-- Nothing fails, and the transaction is not full. -/
def calmTxn : TxnEnv := ⟨false, none, none⟩

end Ext4b

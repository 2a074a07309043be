import OpenExt4.Bridge.OrphanList
import OpenExt4.Extension.Volume

set_option autoImplicit false

/-! # What the calls of the core free

For each call that the jobs of `Ext4Volume` make: which inodes lose their bit, and which lose their
last name and keep it. -/

namespace Ext4Volume

open Ext4b

/-- The inode is in use as before, and has links as before. -/
def SameUse (d d' : Inode) : Prop := d'.inUse = d.inUse ∧ (d'.linksCnt = 0 ↔ d.linksCnt = 0)

/-- So are all inodes but `c`. -/
def SameUseOff (v w : Volume) (c : ℕ) : Prop := ∀ i, i ≠ c → SameUse (v.inodes i) (w.inodes i)

/-- Taking one name away takes the last. -/
def LastName (d : Inode) : Prop := d.type = .dir ∨ d.linksCnt = 1

instance (d : Inode) : Decidable (LastName d) := inferInstanceAs (Decidable (_ ∨ _))

theorem SameUse.refl (d : Inode) : SameUse d d := ⟨rfl, Iff.rfl⟩

theorem SameUse.trans {d d' d'' : Inode} (h : SameUse d d') (h' : SameUse d' d'') :
    SameUse d d'' := ⟨h'.1.trans h.1, h'.2.trans h.2⟩

section Release

variable {v w : Volume}

/-- Deletion times apart, the volumes have the same inodes. -/
def OnlyTimes (v w : Volume) : Prop :=
  ∀ i, w.inodes i = { v.inodes i with delTime := (w.inodes i).delTime }

theorem OnlyTimes.trans {x : Volume} (h : OnlyTimes v w) (h' : OnlyTimes w x) : OnlyTimes v x := by
  intro i
  rw [h' i, h i]

theorem OnlyTimes.sameUse (h : OnlyTimes v w) (i : ℕ) : SameUse (v.inodes i) (w.inodes i) := by
  rw [h i]
  exact .refl _

theorem onlyTimes_setNext (v : Volume) (p next : ℕ) : OnlyTimes v (orphanSetNext v p next) := by
  intro i
  unfold orphanSetNext
  by_cases hi : i = p
  · subst hi
    rw [Volume.modify_self]
  · rw [Volume.modify_of_ne _ _ _ hi]

theorem onlyTimes_closeOver (v : Volume) (ino after : ℕ) :
    ∀ fuel prev, OnlyTimes v (closeOver v ino after fuel prev) := by
  intro fuel
  induction fuel with
  | zero => exact fun _ _ => rfl
  | succ fuel ih =>
      intro prev
      unfold closeOver
      split
      · exact fun _ => rfl
      · dsimp only
        split
        · exact onlyTimes_setNext v prev after
        · exact ih _

theorem onlyTimes_orphanDel (v : Volume) (ino : ℕ) : OnlyTimes v (orphanDel v ino) := by
  unfold orphanDel
  dsimp only
  split
  · exact fun _ => rfl
  · split
    · exact onlyTimes_setNext v ino 0
    · exact (onlyTimes_setNext v ino 0).trans (onlyTimes_closeOver _ _ _ _ _)

/-- **A release** of an inode without links succeeds if it can be truncated, and frees it. -/
theorem releaseInode_ok {now ino : ℕ} (hino : rootIno ≤ ino) (hlinks : (v.inodes ino).linksCnt = 0)
    (htruncate : (v.inodes ino).inUse = true → canTruncate (v.inodes ino) = true) :
    ∃ w, releaseInode v now ino = .ok w ∧ SameUseOff v w ino ∧ (w.inodes ino).inUse = false ∧
      (w.inodes ino).linksCnt = 0 := by
  unfold releaseInode
  rw [if_neg (Nat.not_lt.mpr hino)]
  dsimp only
  have htimes : OnlyTimes v (if v.lastOrphan = ino then v else orphanDel v ino) := by
    split
    · exact fun _ => rfl
    · exact onlyTimes_orphanDel v ino
  generalize (if v.lastOrphan = ino then v else orphanDel v ino) = x at htimes
  obtain ⟨huse, hzero⟩ := htimes.sameUse ino
  rw [if_neg (not_not.mpr (hzero.mpr hlinks))]
  split
  · next hfree => exact ⟨x, rfl, fun i _ => htimes.sameUse i, hfree, hzero.mpr hlinks⟩
  · next hused =>
    have htruncate' : canTruncate (x.inodes ino) = true := by
      rw [htimes ino]
      exact htruncate (huse.symm.trans (eq_true_of_ne_false hused))
    have hfree : freeInode x now ino = .ok (x.modify ino (freedInode now)) := if_pos htruncate'
    have hoff : SameUseOff v (x.modify ino (freedInode now)) ino := by
      intro i hi
      rw [Volume.modify_of_ne _ _ _ hi]
      exact htimes.sameUse i
    have hgone : ((x.modify ino (freedInode now)).inodes ino).inUse = false ∧
        ((x.modify ino (freedInode now)).inodes ino).linksCnt = 0 := by
      rw [Volume.modify_self]
      exact ⟨rfl, hzero.mpr hlinks⟩
    rw [hfree, ok_bind]
    generalize x.modify ino (freedInode now) = y at hoff hgone
    split
    · exact ⟨{ y with lastOrphan := orphanNext x ino }, rfl, hoff, hgone⟩
    · exact ⟨y, rfl, hoff, hgone⟩

/-! The same calls in their transactions, as far as those are committed. -/

variable {m : Mount} {t t₁ t₂ : TxnEnv}

theorem orphanDel_mount {ino : ℕ} (hcommit : t.commit = none) (hflush : t.flush = none)
    (hne : m.cur.lastOrphan ≠ ino) :
    (Ext4b.orphanDel m t ino).1 = none ∧
      (Ext4b.orphanDel m t ino).2.cur = orphanDel m.cur ino := by
  unfold Ext4b.orphanDel orphanDel
  dsimp only
  by_cases hnone : m.cur.lastOrphan = 0 ∨ ino = 0
  · rw [if_pos hnone, if_pos hnone]
    exact ⟨rfl, rfl⟩
  · rw [if_neg hnone, if_neg hnone, if_neg hne, if_neg hne]
    exact ⟨txnFinish_none hcommit hflush, txnFinish_cur hcommit⟩

/-- **`ext4b_release_inode` in its transactions** leaves in the cache what it leaves without
    them. -/
theorem releaseInode_mount {now ino : ℕ} (hcommit₁ : t₁.commit = none) (hflush₁ : t₁.flush = none)
    (hcommit₂ : t₂.commit = none) (hflush₂ : t₂.flush = none)
    (hok : releaseInode m.cur now ino = .ok w) :
    ((Ext4b.releaseInode m t₁ t₂ now ino).getLastD m).cur = w := by
  unfold releaseInode at hok
  unfold Ext4b.releaseInode
  split at hok
  · cases hok
  next hino =>
  rw [if_neg hino]
  dsimp only at hok
  -- the second transaction, on the mount the first has left
  have hfree : ∀ (x : Mount) (isHead : Bool), (x.cur.inodes ino).linksCnt = 0 →
      (if (x.cur.inodes ino).inUse = false then Except.ok x.cur else do
        let v ← freeInode x.cur now ino
        return if isHead = true then { v with lastOrphan := orphanNext x.cur ino } else v) =
          (.ok w : Result Volume) →
      (releaseFree x t₂ now ino isHead).2.cur = w := by
    intro x isHead hlinks hx
    unfold releaseFree
    dsimp only
    rw [if_neg (not_not.mpr hlinks)]
    split
    · next hunused =>
      rw [if_pos hunused] at hx
      exact (txnFinish_cur hcommit₂).trans (Except.ok.inj hx)
    · next hused =>
      rw [if_neg hused] at hx
      rcases freeInode_cases x.cur now ino with ⟨-, hfreed⟩ | ⟨-, hfreed⟩
      · rw [hfreed] at hx ⊢
        rw [ok_bind] at hx
        dsimp only
        rw [if_neg fun hn => hn.1 (txnFinish_none hcommit₂ hflush₂), txnFinish_cur hcommit₂]
        rw [← Except.ok.inj hx]
        cases isHead <;> rfl
      · rw [hfreed] at hx
        cases hx
  by_cases hhead : m.cur.lastOrphan = ino
  · rw [if_pos hhead] at hok ⊢
    split at hok
    · cases hok
    next hlinks =>
    exact hfree m true (not_not.mp hlinks) hok
  · rw [if_neg hhead] at hok ⊢
    obtain ⟨hnone, hcur⟩ := orphanDel_mount hcommit₁ hflush₁ hhead
    generalize Ext4b.orphanDel m t₁ ino = x at hnone hcur
    obtain ⟨r, m₁⟩ := x
    dsimp only at hnone hcur
    subst hnone
    rw [← hcur] at hok
    split at hok
    · cases hok
    next hlinks =>
    exact hfree m₁ false (not_not.mp hlinks) hok

end Release

section Names

variable {v w : Volume} {env : Env}

theorem alikeOff_sameUse {c : ℕ} (h : AlikeOff v w c) : SameUseOff v w c :=
  fun i hi => ⟨(h.inodes i hi).1, (h.inodes i hi).2.2⟩

/-- What has a name left is not orphaned by the loss of one, and what has not is. -/
theorem linksCnt_of_unlinks {c : ℕ} (h : Unlinks v w c) (hlinks : (v.inodes c).linksCnt ≠ 0)
    (hzero : (w.inodes c).linksCnt = 0) : LastName (v.inodes c) := by
  by_cases hdir : (v.inodes c).type = .dir
  · exact .inl hdir
  · have hless := h.linksCnt hdir
    exact .inr (by omega)

/-- **A deletion** is refused, takes a name, or takes the last: then the inode is freed, unless the
    release is put off. -/
theorem unlinkEx_effect (env : Env) {directory : ℕ} {name : Name} (deferRelease : Bool)
    (hsafe : ∀ child, findEntry v (v.inodes directory) name = some child →
      (v.inodes child).inUse = true ∧ (v.inodes child).linksCnt ≠ 0 ∧
        (LastName (v.inodes child) → deferRelease = false →
          canTruncate (v.inodes child) = true)) :
    (∃ e, unlinkEx v env directory name deferRelease = .error (e, v)) ∨
      ∃ child orphaned w, findEntry v (v.inodes directory) name = some child ∧
        unlinkEx v env directory name deferRelease = .ok (orphaned, w) ∧ SameUseOff v w child ∧
        ((orphaned = false ∧ SameUse (v.inodes child) (w.inodes child)) ∨
          (LastName (v.inodes child) ∧ orphaned = deferRelease ∧
            (w.inodes child).inUse = deferRelease ∧ (w.inodes child).linksCnt = 0)) := by
  rcases unlinkEx_cases v env directory name deferRelease with ⟨e, herror⟩ |
    ⟨child, w, hfound, hunlinks, hor⟩
  · exact .inl ⟨e, herror⟩
  obtain ⟨hused, hlinks, htruncate⟩ := hsafe child hfound
  have hoff := alikeOff_sameUse hunlinks.off
  right
  rcases hor with ⟨hzero, hok⟩ | ⟨hzero, hok⟩
  · have hlast := linksCnt_of_unlinks hunlinks hlinks hzero
    cases deferRelease with
    | true =>
        rw [if_pos rfl] at hok
        refine ⟨child, true, _, hfound, hok, fun i hi => ?_, .inr ⟨hlast, rfl, ?_, ?_⟩⟩
        · exact (hoff i hi).trans ((onlyTimes_setNext w child w.lastOrphan).sameUse i)
        · exact ((onlyTimes_setNext w child w.lastOrphan).sameUse child).1.trans
            (hunlinks.inUse.trans hused)
        · exact ((onlyTimes_setNext w child w.lastOrphan).sameUse child).2.mpr hzero
    | false =>
        have hfree : freeInode w env.now child = .ok (w.modify child (freedInode env.now)) :=
          if_pos (hunlinks.truncate.trans (htruncate hlast rfl))
        rw [if_neg Bool.false_ne_true, hfree] at hok
        refine ⟨child, false, _, hfound, hok, fun i hi => ?_, .inr ⟨hlast, rfl, ?_, ?_⟩⟩
        · rw [Volume.modify_of_ne _ _ _ hi]
          exact hoff i hi
        · rw [Volume.modify_self]
          rfl
        · rw [Volume.modify_self]
          exact hzero
  · exact ⟨child, false, w, hfound, hok, hoff,
      .inl ⟨rfl, hunlinks.inUse, iff_of_false hzero hlinks⟩⟩

/-! ## Rename -/

theorem sameUse_modify {p i : ℕ} {f : Inode → Inode}
    (hf : i = p → SameUse (v.inodes p) (f (v.inodes p))) :
    SameUse (v.inodes i) ((v.modify p f).inodes i) := by
  by_cases hi : i = p
  · subst hi
    rw [Volume.modify_self]
    exact hf rfl
  · rw [Volume.modify_of_ne _ _ _ hi]
    exact .refl _

/-- A count with room that is not 0 does not become 0. -/
theorem linksCountInc_sameUse {d : Inode} (hlinks : d.linksCnt ≠ 0)
    (hroom : d.linksCnt + 1 < 2 ^ 16) : SameUse d (linksCountInc v d) := by
  refine ⟨rfl, iff_of_false ?_ hlinks⟩
  unfold linksCountInc
  dsimp only
  rw [Nat.mod_eq_of_lt hroom]
  split
  · exact one_ne_zero
  · exact Nat.succ_ne_zero _

/-- The replaced target: nothing changes, it has a name less, or it is freed. -/
theorem replaceTarget_effect (env : Env) {dstParent child : ℕ} {dstName : Name}
    (hvictim : ∀ victim, findEntry v (v.inodes dstParent) dstName = some victim →
      victim ≠ child → (v.inodes victim).inUse = true ∧ (v.inodes victim).linksCnt ≠ 0 ∧
        (LastName (v.inodes victim) → canTruncate (v.inodes victim) = true)) :
    (∃ e, replaceTarget v env dstParent dstName child = .error (e, v)) ∨
      ∃ w, replaceTarget v env dstParent dstName child = .ok w ∧
        (∀ i, (w.inodes i).type = (v.inodes i).type ∧
          (w.inodes i).linksCnt ≤ (v.inodes i).linksCnt) ∧
        ((∀ i, SameUse (v.inodes i) (w.inodes i)) ∨
          ∃ victim, findEntry v (v.inodes dstParent) dstName = some victim ∧ victim ≠ child ∧
            LastName (v.inodes victim) ∧ SameUseOff v w victim ∧
            (w.inodes victim).inUse = false) := by
  unfold replaceTarget
  cases hfound : findEntry v (v.inodes dstParent) dstName with
  | none => exact .inr ⟨v, rfl, fun _ => ⟨rfl, le_rfl⟩, .inl fun _ => .refl _⟩
  | some victim =>
      dsimp only
      by_cases heq : victim = child
      · rw [if_pos heq]
        exact .inr ⟨v, rfl, fun _ => ⟨rfl, le_rfl⟩, .inl fun _ => .refl _⟩
      rw [if_neg heq]
      split
      · exact .inl ⟨_, rfl⟩
      split
      · exact .inl ⟨_, rfl⟩
      split
      · exact .inl ⟨_, rfl⟩
      obtain ⟨hused, hlinks, htruncate⟩ := hvictim victim hfound heq
      rcases unlinkChild_cases v dstParent victim dstName with ⟨e, herror⟩ | ⟨w, hok, hunlinks⟩
      · rw [herror]
        exact .inl ⟨e, rfl⟩
      have hoff := alikeOff_sameUse hunlinks.off
      rw [hok, ok_bind]
      right
      by_cases hzero : (w.inodes victim).linksCnt = 0
      · have hlast := linksCnt_of_unlinks hunlinks hlinks hzero
        have hfree : freeInode w env.now victim = .ok (w.modify victim (freedInode env.now)) :=
          if_pos (hunlinks.truncate.trans (htruncate hlast))
        rw [if_pos hzero, hfree]
        refine ⟨_, rfl, fun i => ⟨(modify_kept Inode.type rfl i).trans (hunlinks.type i),
          (modify_fewer le_rfl i).trans (hunlinks.fewer i)⟩,
          .inr ⟨victim, rfl, heq, hlast, fun i hi => ?_, ?_⟩⟩
        · rw [Volume.modify_of_ne _ _ _ hi]
          exact hoff i hi
        · rw [Volume.modify_self]
          rfl
      · rw [if_neg hzero]
        refine ⟨w, rfl, fun i => ⟨hunlinks.type i, hunlinks.fewer i⟩, .inl fun i => ?_⟩
        by_cases hi : i = victim
        · subst hi
          exact ⟨hunlinks.inUse, iff_of_false hzero hlinks⟩
        · exact hoff i hi

theorem setDotdot_sameUse (parent : ℕ) (d : Inode) : SameUse d (setDotdot parent d) := by
  unfold setDotdot
  split <;> exact .refl _

theorem linkChild_use {pos dstParent child i : ℕ} {name : Name}
    (hcount : (v.inodes child).type = .dir → i = dstParent →
      (v.inodes dstParent).linksCnt ≠ 0 ∧ (v.inodes dstParent).linksCnt + 1 < 2 ^ 16) :
    SameUse (v.inodes i) ((linkChild v pos dstParent child name true).volume.inodes i) := by
  have hadd : SameUse (v.inodes i)
      ((v.modify dstParent (addEntry pos name child)).inodes i) := sameUse_modify fun _ => .refl _
  have htype := modify_kept (v := v) (p := dstParent) (f := addEntry pos name child)
    Inode.type rfl child
  -- the entry, the new `..` and the count, in whichever block the `..` stands
  have hinc : ∀ f : Inode → Inode, (∀ d, SameUse d (f d)) → (∀ d, (f d).linksCnt = d.linksCnt) →
      (v.inodes child).type = .dir → ∀ x,
      SameUse (v.inodes i) ((((v.modify dstParent (addEntry pos name child)).modify child f).modify
        dstParent (linksCountInc x)).inodes i) := by
    intro f hf hlinks hdir x
    refine (hadd.trans (sameUse_modify fun _ => hf _)).trans (sameUse_modify fun hi => ?_)
    obtain ⟨hnz, hroom⟩ := hcount hdir hi
    have hsame : (((v.modify dstParent (addEntry pos name child)).modify child f).inodes
        dstParent).linksCnt = (v.inodes dstParent).linksCnt :=
      (modify_kept Inode.linksCnt (hlinks _) dstParent).trans
        (modify_kept Inode.linksCnt rfl dstParent)
    exact linksCountInc_sameUse (hsame ▸ hnz) (hsame ▸ hroom)
  unfold linkChild
  split
  · exact .refl _
  dsimp only
  split
  · next hdir =>
    rw [htype] at hdir
    split
    · next hno => exact absurd hno (by decide)
    split
    · split
      · exact hadd
      · refine hinc (setDotdot dstParent) (setDotdot_sameUse dstParent) (fun d => ?_) hdir _
        unfold setDotdot
        split <;> rfl
    · exact hinc (fun d => { d with dotdot := some dstParent }) (fun _ => .refl _) (fun _ => rfl)
        hdir _
  · split
    · next hno => exact absurd hno (by decide)
    · exact hadd

theorem moveEntry_use {srcParent dstParent child i : ℕ} {srcName dstName : Name}
    (hcount : (v.inodes child).type = .dir → i = dstParent →
      (v.inodes dstParent).linksCnt ≠ 0 ∧ (v.inodes dstParent).linksCnt + 1 < 2 ^ 16) :
    SameUse (v.inodes i)
      ((moveEntry v env srcParent srcName dstParent dstName child).volume.inodes i) := by
  have hlink := @linkChild_use v env.pos dstParent child i dstName hcount
  unfold moveEntry
  generalize linkChild v env.pos dstParent child dstName true = r at hlink
  cases r with
  | error ex => exact hlink
  | ok x =>
      change SameUse (v.inodes i) (x.inodes i) at hlink
      rw [ok_bind]
      rcases removeEntry_cases x srcParent srcName with ⟨e, herror⟩ | ⟨hdir, hok⟩
      · rw [herror]
        exact hlink
      · obtain ⟨halike, htype, -, -⟩ := eraseEntry_kept x srcName (x.inodes srcParent)
        have herase : SameUse (x.inodes i)
            ((x.modify srcParent (eraseEntry x srcName)).inodes i) :=
          sameUse_modify fun _ => ⟨halike.1, halike.2.2⟩
        rw [hok, ok_bind]
        split
        · refine (hlink.trans herase).trans (sameUse_modify fun _ => ?_)
          rw [Volume.modify_self]
          obtain ⟨huse, -, hzero⟩ := linksCountDec_alike (htype.trans hdir)
          exact ⟨huse, hzero⟩
        · exact hlink.trans herase

theorem checkAncestry_cases (unreadable : ℕ → Bool) (child : ℕ) : ∀ fuel walk,
    checkAncestry v unreadable child fuel walk = .ok () ∨
      ∃ e, checkAncestry v unreadable child fuel walk = .error (e, v) := by
  intro fuel
  induction fuel with
  | zero => exact fun _ => .inr ⟨_, rfl⟩
  | succ fuel ih =>
      intro walk
      unfold checkAncestry
      split
      · exact .inl rfl
      split
      · exact .inr ⟨_, rfl⟩
      dsimp only
      split
      · exact .inl rfl
      · exact ih _

/-- What a rename does to the use of the inodes: nothing, or it frees the target it replaces. -/
def RenameEffect (v w : Volume) (dstParent : ℕ) (dstName : Name) (moved : Option ℕ) : Prop :=
  (∀ i, SameUse (v.inodes i) (w.inodes i)) ∨
    ∃ victim, findEntry v (v.inodes dstParent) dstName = some victim ∧ moved ≠ some victim ∧
      LastName (v.inodes victim) ∧ SameUseOff v w victim ∧ (w.inodes victim).inUse = false

/-- **A rename** frees the target it replaces if that has no other name, and no other inode comes
    into use, goes out of it or loses its last name, whether the rename fails or not. -/
theorem rename_effect (env : Env) {srcParent dstParent : ℕ} {srcName dstName : Name}
    (hchild : ∀ child, findEntry v (v.inodes srcParent) srcName = some child →
      (v.inodes child).type = .dir →
        (v.inodes dstParent).linksCnt ≠ 0 ∧ (v.inodes dstParent).linksCnt + 1 < 2 ^ 16)
    (hvictim : ∀ victim, findEntry v (v.inodes dstParent) dstName = some victim →
      findEntry v (v.inodes srcParent) srcName ≠ some victim →
        victim ≠ dstParent ∧ (v.inodes victim).inUse = true ∧ (v.inodes victim).linksCnt ≠ 0 ∧
          (LastName (v.inodes victim) → canTruncate (v.inodes victim) = true)) :
    RenameEffect v (rename v env srcParent srcName dstParent dstName).volume dstParent dstName
      (findEntry v (v.inodes srcParent) srcName) := by
  have hnothing : RenameEffect v v dstParent dstName (findEntry v (v.inodes srcParent) srcName) :=
    .inl fun _ => .refl _
  unfold rename
  split
  · exact hnothing
  split
  · exact hnothing
  next child hfound =>
  split
  · exact hnothing
  have hrest : RenameEffect v (Result.volume (do
      let v ← replaceTarget v env dstParent dstName child
      moveEntry v env srcParent srcName dstParent dstName child)) dstParent dstName
      (some child) := by
    rcases replaceTarget_effect env fun victim hdst hne =>
        (hvictim victim hdst fun heq => hne (Option.some.inj (hfound.symm.trans heq)).symm).2 with
      ⟨e, herror⟩ | ⟨w, hok, hkept, heffect⟩
    · rw [herror]
      exact .inl fun _ => .refl _
    rw [hok, ok_bind]
    have hmove : ∀ i, SameUse (v.inodes i) (w.inodes i) → SameUse (v.inodes i)
        ((moveEntry w env srcParent srcName dstParent dstName child).volume.inodes i) := by
      refine fun i hsame => hsame.trans (moveEntry_use fun hdir hi => ?_)
      obtain ⟨hnz, hroom⟩ := hchild child hfound ((hkept child).1.symm.trans hdir)
      rw [hi] at hsame
      refine ⟨fun hzero => hnz (hsame.2.mp hzero), ?_⟩
      exact Nat.lt_of_le_of_lt (Nat.succ_le_succ (hkept dstParent).2) hroom
    rcases heffect with hsame | ⟨victim, hdst, hne, hlast, hoff, hgone⟩
    · exact .inl fun i => hmove i (hsame i)
    · have hmoved : some child ≠ some victim := fun hn => hne (Option.some.inj hn).symm
      have hself := (hvictim victim hdst (hfound.symm ▸ hmoved)).1
      refine .inr ⟨victim, hdst, hmoved, hlast, fun i hi => hmove i (hoff i hi), ?_⟩
      exact (moveEntry_use fun _ hi => absurd hi hself).1.trans hgone
  rw [hfound]
  split
  · rcases checkAncestry_cases (v := v) env.unreadable child (v.inodesCount + 1) dstParent with
      hok | ⟨e, herror⟩
    · rw [hok]
      exact hrest
    · rw [herror]
      exact .inl fun _ => .refl _
  · exact hrest

end Names

end Ext4Volume

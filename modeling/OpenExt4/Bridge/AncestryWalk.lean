import OpenExt4.Bridge.Ops
import Mathlib.Data.Nat.Find
import Mathlib.Logic.Function.Iterate

set_option autoImplicit false

/-! # The walk of a rename on any volume

`ext4b_rename` follows `..` from the new parent to the root before it changes anything. On a volume
whose directories are no tree the chain may go in a circle that has neither the root nor the moved
directory on it, and the walk has nothing to notice that with. -/

namespace Ext4b

variable (v : Volume) (unreadable : ℕ → Bool) (child : ℕ)

/-- The part of `ext4b_rename` behind the walk. -/
def renameBehind (env : Env) (srcParent : ℕ) (srcName : Name) (dstParent : ℕ) (dstName : Name) :
    Result Volume := do
  let v ← replaceTarget v env dstParent dstName child
  moveEntry v env srcParent srcName dstParent dstName child

/-- `ext4b_rename` with the number of turns its walk may take. -/
def renameWalking (fuel : ℕ) (env : Env) (srcParent : ℕ) (srcName : Name) (dstParent : ℕ)
    (dstName : Name) : Result Volume :=
  if srcName.length = 0 ∨ dstName.length = 0 ∨ EXT4_DIRECTORY_FILENAME_LEN < dstName.length then
    .error (Errno.EINVAL, v)
  else
    match findEntry v (v.inodes srcParent) srcName with
    | none => .error (Errno.ENOENT, v)
    | some child =>
        if unlinkForbidden (v.inodes srcParent) (v.inodes child) ∨
            (v.inodes dstParent).immutable then .error (Errno.EPERM, v)
        else do
          if (v.inodes child).type = .dir ∧ dstParent ≠ srcParent then
            checkAncestry v env.unreadable child fuel dstParent
          renameBehind v child env srcParent srcName dstParent dstName

/-! ## The chain -/

/-- The walk takes no further turn at inode `d`. -/
def Stops (d : ℕ) : Prop :=
  d = rootIno ∨ d = child ∨ dirParentInode v unreadable d = 0 ∨ dirParentInode v unreadable d = d

/-- The chain of `..` from one inode comes to the other. It ends at the root, and at an inode whose
    `..` is missing or cannot be read. -/
def OnWalk (from' x : ℕ) : Prop :=
  ∃ n, (dirParentInode v unreadable)^[n] from' = x ∧
    ∀ m < n, (dirParentInode v unreadable)^[m] from' ≠ rootIno ∧
      dirParentInode v unreadable ((dirParentInode v unreadable)^[m] from') ≠ 0

/-- The walk ends, and refuses the inodes on the chain, no others. -/
structure WalkDecides (from' : ℕ) : Prop where
  ends : ∃ fuel, checkAncestry v unreadable child fuel from' ≠ .error (Errno.diverges, v)
  refuses : OnWalk v unreadable from' child →
    ∃ fuel, checkAncestry v unreadable child fuel from' = .error (Errno.EINVAL, v)
  allows : ¬ OnWalk v unreadable from' child →
    ∃ fuel, checkAncestry v unreadable child fuel from' = .ok ()

variable {v unreadable child}

/-! ## The turns -/

theorem checkAncestry_of_stops {d : ℕ} (h : Stops v unreadable child d) (fuel : ℕ) :
    checkAncestry v unreadable child (fuel + 1) d =
      if d = child ∧ d ≠ rootIno then .error (Errno.EINVAL, v) else .ok () := by
  rw [checkAncestry]
  by_cases hroot : d = rootIno
  · simp [hroot]
  rw [if_neg hroot]
  by_cases hchild : d = child
  · rw [if_pos hchild, if_pos ⟨hchild, hroot⟩]
  · have hend : dirParentInode v unreadable d = 0 ∨ dirParentInode v unreadable d = d :=
      (h.resolve_left hroot).resolve_left hchild
    simp [hchild, hend]

theorem checkAncestry_of_not_stops {d : ℕ} (h : ¬ Stops v unreadable child d) (fuel : ℕ) :
    checkAncestry v unreadable child (fuel + 1) d
      = checkAncestry v unreadable child fuel (dirParentInode v unreadable d) := by
  simp only [Stops, not_or] at h
  obtain ⟨hroot, hchild, hzero, hself⟩ := h
  rw [checkAncestry, if_neg hroot, if_neg hchild]
  simp [hzero, hself]

/-- With enough turns the walk decides at the first inode at which it stops. -/
theorem checkAncestry_of_first {from' n : ℕ}
    (hstop : Stops v unreadable child ((dirParentInode v unreadable)^[n] from'))
    (hbefore : ∀ m < n, ¬ Stops v unreadable child ((dirParentInode v unreadable)^[m] from'))
    (more : ℕ) : checkAncestry v unreadable child (n + 1 + more) from' =
      if (dirParentInode v unreadable)^[n] from' = child ∧
          (dirParentInode v unreadable)^[n] from' ≠ rootIno then .error (Errno.EINVAL, v)
      else .ok () := by
  induction n generalizing from' with
  | zero =>
      rw [show 0 + 1 + more = more + 1 by omega]
      exact checkAncestry_of_stops hstop more
  | succ n ih =>
      have hnow : ¬ Stops v unreadable child from' := hbefore 0 (by omega)
      rw [show n + 1 + 1 + more = n + 1 + more + 1 by omega, checkAncestry_of_not_stops hnow,
        Function.iterate_succ_apply]
      rw [Function.iterate_succ_apply] at hstop
      refine ih hstop fun m hm => ?_
      have hlater := hbefore (m + 1) (by omega)
      rwa [Function.iterate_succ_apply] at hlater

/-- More turns than a walk needs do not change its answer. -/
theorem checkAncestry_mono {fuel from' : ℕ} {e : Errno} (hne : e ≠ Errno.diverges)
    (h : checkAncestry v unreadable child fuel from' = .error (e, v)) (more : ℕ) :
    checkAncestry v unreadable child (fuel + more) from' = .error (e, v) := by
  induction fuel generalizing from' with
  | zero =>
      cases h
      exact absurd rfl hne
  | succ fuel ih =>
      rw [show fuel + 1 + more = fuel + more + 1 by omega]
      by_cases hstop : Stops v unreadable child from'
      · rw [checkAncestry_of_stops hstop] at h ⊢
        exact h
      · rw [checkAncestry_of_not_stops hstop] at h ⊢
        exact ih h

/-- Where it never stops, no number of turns is enough. -/
theorem checkAncestry_of_circle {from' : ℕ}
    (h : ∀ n, ¬ Stops v unreadable child ((dirParentInode v unreadable)^[n] from')) (fuel : ℕ) :
    checkAncestry v unreadable child fuel from' = .error (Errno.diverges, v) := by
  induction fuel generalizing from' with
  | zero => rfl
  | succ fuel ih =>
      have hnow : ¬ Stops v unreadable child from' := h 0
      rw [checkAncestry_of_not_stops hnow]
      refine ih fun n => ?_
      have hnext := h (n + 1)
      rwa [Function.iterate_succ_apply] at hnext

/-- The moved directory is on the chain just if the walk stops at it. -/
theorem onWalk_iff_first {from' n : ℕ}
    (hstop : Stops v unreadable child ((dirParentInode v unreadable)^[n] from'))
    (hbefore : ∀ m < n, ¬ Stops v unreadable child ((dirParentInode v unreadable)^[m] from')) :
    OnWalk v unreadable from' child ↔ (dirParentInode v unreadable)^[n] from' = child := by
  constructor
  · rintro ⟨k, hk, hopen⟩
    rcases Nat.lt_trichotomy k n with hlt | rfl | hgt
    · exact absurd (.inr (.inl hk)) (hbefore k hlt)
    · exact hk
    · -- the chain goes on behind the stop, so that it stands there
      obtain ⟨hroot, hzero⟩ := hopen n hgt
      rcases hstop with hat | hat | hat | hat
      · exact absurd hat hroot
      · exact hat
      · exact absurd hat hzero
      · obtain ⟨j, rfl⟩ := Nat.exists_eq_add_of_lt hgt
        rw [show n + j + 1 = (j + 1) + n by omega, Function.iterate_add_apply,
          Function.iterate_fixed hat] at hk
        exact hk
  · intro hat
    refine ⟨n, hat, fun m hm => ?_⟩
    have hnot := hbefore m hm
    simp only [Stops, not_or] at hnot
    exact ⟨hnot.1, hnot.2.2.1⟩

/-! ## The decision -/

/-- The first inode at which a walk stops, if there is one. -/
theorem exists_first {from' : ℕ}
    (h : ∃ n, Stops v unreadable child ((dirParentInode v unreadable)^[n] from')) :
    ∃ n, Stops v unreadable child ((dirParentInode v unreadable)^[n] from') ∧
      ∀ m < n, ¬ Stops v unreadable child ((dirParentInode v unreadable)^[m] from') := by
  classical
  exact ⟨Nat.find h, Nat.find_spec h, fun m hm => Nat.find_min h hm⟩

/-- The walk decides rightly where it stops, but for the root itself. -/
theorem walkDecides_iff_stops {from' : ℕ} : WalkDecides v unreadable child from' ↔
    (∃ n, Stops v unreadable child ((dirParentInode v unreadable)^[n] from')) ∧
      ¬ (child = rootIno ∧ OnWalk v unreadable from' rootIno) := by
  constructor
  · intro h
    have hends : ∃ n, Stops v unreadable child ((dirParentInode v unreadable)^[n] from') := by
      by_contra hnever
      obtain ⟨fuel, hfuel⟩ := h.ends
      exact hfuel (checkAncestry_of_circle (not_exists.mp hnever) fuel)
    refine ⟨hends, ?_⟩
    rintro ⟨rfl, hon⟩
    obtain ⟨n, hstop, hbefore⟩ := exists_first hends
    obtain ⟨fuel, hfuel⟩ := h.refuses hon
    -- more turns than the walk needs do not change its answer
    have hat := (onWalk_iff_first hstop hbefore).mp hon
    have hok := checkAncestry_of_first hstop hbefore fuel
    rw [if_neg (by simp [hat])] at hok
    rw [Nat.add_comm, checkAncestry_mono (by decide) hfuel] at hok
    cases hok
  · rintro ⟨hends, hroot⟩
    obtain ⟨n, hstop, hbefore⟩ := exists_first hends
    have hon := onWalk_iff_first hstop hbefore
    have hdecides := checkAncestry_of_first hstop hbefore 0
    by_cases hat : (dirParentInode v unreadable)^[n] from' = child
    · have hne : (dirParentInode v unreadable)^[n] from' ≠ rootIno := by
        intro heq
        exact hroot ⟨hat.symm.trans heq, by rw [← hat.symm.trans heq]; exact hon.mpr hat⟩
      rw [if_pos ⟨hat, hne⟩] at hdecides
      exact ⟨⟨n + 1, by rw [hdecides]; simp⟩, fun _ => ⟨n + 1, hdecides⟩,
        fun hnot => absurd (hon.mpr hat) hnot⟩
    · rw [if_neg (fun hboth => hat hboth.1)] at hdecides
      exact ⟨⟨n + 1, by rw [hdecides]; simp⟩, fun hyes => absurd (hon.mp hyes) hat,
        fun _ => ⟨n + 1, hdecides⟩⟩

/-- **The walk decides rightly** if and only if the chain from the new parent comes to the root, to
    the moved directory, to an inode without a `..` that can be read, or to one that names itself,
    and it is not the root that is moved while it lies on the chain. What the walk refuses is
    returned with the volume as it was; only behind it anything is changed. -/
theorem walkDecides_iff (v : Volume) (env : Env) (srcParent : ℕ) (srcName : Name) (dstParent : ℕ)
    (dstName : Name) (child : ℕ)
    (hnames : ¬ (srcName.length = 0 ∨ dstName.length = 0 ∨
      EXT4_DIRECTORY_FILENAME_LEN < dstName.length))
    (hfound : findEntry v (v.inodes srcParent) srcName = some child)
    (hallowed : ¬ (unlinkForbidden (v.inodes srcParent) (v.inodes child) ∨
      (v.inodes dstParent).immutable))
    (hdir : (v.inodes child).type = .dir) (hother : dstParent ≠ srcParent) :
    (WalkDecides v env.unreadable child dstParent ↔
      (∃ n, Stops v env.unreadable child ((dirParentInode v env.unreadable)^[n] dstParent)) ∧
        ¬ (child = rootIno ∧ OnWalk v env.unreadable dstParent rootIno)) ∧
    ∀ fuel, renameWalking v fuel env srcParent srcName dstParent dstName =
      match checkAncestry v env.unreadable child fuel dstParent with
      | .error e => .error e
      | .ok _ => renameBehind v child env srcParent srcName dstParent dstName := by
  refine ⟨walkDecides_iff_stops, fun fuel => ?_⟩
  rw [renameWalking, if_neg hnames, hfound]
  dsimp only
  rw [if_neg hallowed, if_pos ⟨hdir, hother⟩]
  cases checkAncestry v env.unreadable child fuel dstParent <;> rfl

/-! ## A circle -/

/-- A directory with an entry for each of the inodes given. -/
def plainDir (ino parent : ℕ) (entries : List Dirent) : Inode :=
  { freshInode .dir with linksCnt := 2, dot := some ino, dotdot := some parent, entries := entries }

/-- The root holds 11 as `a` and 12 as `b`, and 12 holds 13 as `c`; the `..` of 12 names `p`. -/
def nested (p : ℕ) : Volume where
  inodes i :=
    if i = 2 then plainDir 2 2 [⟨[0x61], 11⟩, ⟨[0x62], 12⟩]
    else if i = 12 then plainDir 12 p [⟨[0x63], 13⟩]
    else plainDir i (if i = 13 then 12 else 2) []
  inodesCount := 16
  firstInode := 11
  lastOrphan := 0
  dirIndex := true

/-- What the calls on these volumes meet. -/
def quietEnv : Env := ⟨14, 0, 0, fun _ => false⟩

/-- On a tree `a` may be moved into 12. -/
theorem walkDecides_iff_nested : WalkDecides (nested 2) (fun _ => false) 11 12 :=
  (walkDecides_iff (nested 2) quietEnv 2 [0x61] 12 [0x64] 11 (by decide) (by decide) (by decide)
    rfl (by decide)).1.mpr ⟨⟨1, .inl rfl⟩, fun h => absurd h.1 (by decide)⟩

/-- **A circle of `..` holds the walk for good**: 12 names 13 as its parent, and 13 names 12. -/
theorem walk_circles : ¬ ∀ (v : Volume) (env : Env) (srcParent : ℕ) (srcName : Name)
    (dstParent : ℕ) (dstName : Name) (child : ℕ),
    ¬ (srcName.length = 0 ∨ dstName.length = 0 ∨ EXT4_DIRECTORY_FILENAME_LEN < dstName.length) →
    findEntry v (v.inodes srcParent) srcName = some child →
    ¬ (unlinkForbidden (v.inodes srcParent) (v.inodes child) ∨ (v.inodes dstParent).immutable) →
    (v.inodes child).type = .dir → dstParent ≠ srcParent →
    WalkDecides v env.unreadable child dstParent := by
  intro hall
  obtain ⟨fuel, hfuel⟩ := (hall (nested 13) quietEnv 2 [0x61] 12 [0x64] 11 (by decide) (by decide)
    (by decide) rfl (by decide)).ends
  -- the walk is at 12 or at 13 in every turn, and stops at neither
  have hcircle (n : ℕ) : ((dirParentInode (nested 13) fun _ => false)^[n] 12 = 12 ∨
      (dirParentInode (nested 13) fun _ => false)^[n] 12 = 13) := by
    induction n with
    | zero => exact .inl rfl
    | succ n ih =>
        rw [Function.iterate_succ_apply']
        rcases ih with hat | hat
        · rw [hat]
          exact .inr rfl
        · rw [hat]
          exact .inl rfl
  refine hfuel (checkAncestry_of_circle (fun n hstop => ?_) fuel)
  rcases hcircle n with hat | hat
  · rw [show quietEnv.unreadable = fun _ => false from rfl, hat] at hstop
    simp [Stops, dirParentInode, nested, plainDir, rootIno] at hstop
  · rw [show quietEnv.unreadable = fun _ => false from rfl, hat] at hstop
    simp [Stops, dirParentInode, nested, plainDir, rootIno] at hstop

end Ext4b

import Mathlib.Tactic.Push
import OpenExt4.Bridge.Tree

set_option autoImplicit false

/-! # The tree is kept

Each of the three things a call can do to the names of a volume leaves a tree of directories. -/

namespace Ext4b

open Ancestry

variable {v v' : Volume}

/-! ## A new name -/

section Linked

variable {p : ℕ} {name : Name} {c : ℕ}

theorem NewName.inUse {d : Inode} (h : NewName v p c d) : d.inUse = true := by
  cases h with
  | dir => rfl
  | other => rfl
  | link hused => exact hused

theorem NewName.not_live {d : Inode} (h : NewName v p c d) : ¬ LiveDir v c := by
  rintro ⟨hused, htype⟩
  cases h with
  | dir hfree => rw [hfree] at hused; cases hused
  | other _ hfree => rw [hfree] at hused; cases hused
  | link _ hfile => exact hfile htype

/-- A directory with a new name is a fresh one. -/
theorem NewName.of_dir {d : Inode} (h : NewName v p c d) (hdir : d.type = .dir) :
    (v.inodes c).inUse = false ∧ d.dot = some c ∧ d.dotdot = some p ∧ d.entries = [] := by
  cases h with
  | dir hfree => exact ⟨hfree, rfl, rfl, rfl⟩
  | other hfile => exact absurd hdir hfile
  | link _ hfile => exact absurd hdir hfile

theorem Linked.parent_eq (h : Linked v v' p name c) :
    ∃ pos links, v'.inodes p = { addEntry pos name c (v.inodes p) with linksCnt := links } := by
  obtain ⟨pos, hp⟩ := h.parent
  obtain ⟨links, hlinks⟩ := countLink_inc ((v'.inodes c).type == .dir) v
    (addEntry pos name c (v.inodes p))
  exact ⟨pos, links, hp.trans hlinks⟩

theorem Linked.live_iff (h : Linked v v' p name c) (j : ℕ) :
    LiveDir v' j ↔ LiveDir v j ∨ j = c ∧ (v'.inodes c).type = .dir := by
  by_cases hc : j = c
  · subst hc
    constructor
    · exact fun hlive => .inr ⟨rfl, hlive.2⟩
    · rintro (hlive | ⟨-, hdir⟩)
      · exact absurd hlive h.child.not_live
      · exact ⟨h.child.inUse, hdir⟩
  · have hsame : LiveDir v' j ↔ LiveDir v j := by
      by_cases hp : j = p
      · obtain ⟨pos, links, heq⟩ := h.parent_eq
        rw [hp, LiveDir, heq]
        rfl
      · rw [LiveDir, LiveDir, h.frame j hp hc]
    rw [hsame]
    exact ⟨.inl, fun hor => hor.resolve_right fun hn => hc hn.1⟩

theorem Linked.live_parent (h : Linked v v' p name c) : LiveDir v' p :=
  (h.live_iff p).mpr (.inl h.live)

theorem Linked.perm (h : Linked v v' p name c) :
    (v'.inodes p).entries.Perm (⟨name, c⟩ :: (v.inodes p).entries) := by
  obtain ⟨pos, links, heq⟩ := h.parent_eq
  rw [heq]
  exact addEntry_perm pos name c (v.inodes p)

theorem Linked.namesIn_eq (h : Linked v v' p name c) (d i : ℕ) :
    namesIn v' d i = namesIn v d i + if d = p ∧ i = c then 1 else 0 := by
  by_cases hp : d = p
  · subst hp
    rw [namesIn_of_cons h.live h.live_parent h.perm]
    simp only [true_and]
  · rw [if_neg fun hn => hp hn.1, Nat.add_zero]
    by_cases hc : d = c
    · subst hc
      rw [namesIn_of_not_live h.child.not_live]
      by_cases hdir : (v'.inodes d).type = .dir
      · rw [namesIn, Inode.countOf, (h.child.of_dir hdir).2.2.2, List.countP_nil, ite_self]
      · exact namesIn_of_not_live (fun hlive => hdir hlive.2) i
    · exact namesIn_congr (h.frame d hp hc) i

/-- What the directories that were there keep. -/
theorem Linked.kept (h : Linked v v' p name c) {d : ℕ} (hd : LiveDir v d) :
    (v'.inodes d).dot = (v.inodes d).dot ∧ (v'.inodes d).dotdot = (v.inodes d).dotdot := by
  have hc : d ≠ c := fun heq => h.child.not_live (heq ▸ hd)
  by_cases hp : d = p
  · obtain ⟨pos, links, heq⟩ := h.parent_eq
    rw [hp, heq]
    exact ⟨rfl, rfl⟩
  · rw [h.frame d hp hc]
    exact ⟨rfl, rfl⟩

theorem Linked.parentOf_eq (h : Linked v v' p name c) {d : ℕ} (hd : LiveDir v d) :
    parentOf v' d = parentOf v d := by
  rw [parentOf, parentOf, (h.kept hd).2]

theorem Linked.inUse_or (h : Linked v v' p name c) {j : ℕ} (hj : (v'.inodes j).inUse = true) :
    (v.inodes j).inUse = true ∨ j = c := by
  by_cases hc : j = c
  · exact .inr hc
  · left
    by_cases hp : j = p
    · rw [hp]
      exact h.live.1
    · rwa [h.frame j hp hc] at hj

/-- **A new name keeps the tree.** -/
theorem Tree.linked (hv : Tree v) (h : Linked v v' p name c) : Tree v' where
  root := (h.live_iff _).mpr (.inl hv.root)
  bounded i hi := by
    rw [h.inodesCount]
    rcases h.inUse_or hi with hused | rfl
    · exact hv.bounded i hused
    · have hchild := h.child
      generalize v'.inodes i = d at hchild
      cases hchild with
      | dir _ hpos hle => exact ⟨hpos, hle⟩
      | other _ _ hpos hle => exact ⟨hpos, hle⟩
      | link hused => exact hv.bounded i hused
  named d i hname := by
    rw [h.namesIn_eq] at hname
    by_cases hc : i = c
    · rw [hc]
      exact h.child.inUse
    · rw [if_neg fun hn => hc hn.2] at hname
      have hused := hv.named d i hname
      by_cases hp : i = p
      · rw [hp]
        exact h.live_parent.1
      · rwa [h.frame i hp hc]
  rootUnnamed d := by
    rw [h.namesIn_eq, hv.rootUnnamed, if_neg]
    rintro ⟨-, hc⟩
    exact h.child.not_live (hc ▸ hv.root)
  rootDotdot := (h.kept hv.root).2.trans hv.rootDotdot
  names d hd := by
    by_cases hp : d = p
    · subst hp
      exact ((hv.names d h.live).cons h.plain h.absent).perm h.perm
    · by_cases hc : d = c
      · rw [hc, (h.child.of_dir (hc ▸ hd.2)).2.2.2]
        exact ⟨List.nodup_nil, fun e he => absurd he List.not_mem_nil⟩
      · have hsame := h.frame d hp hc
        rw [LiveDir, hsame] at hd
        rw [hsame]
        exact hv.names d hd
  dot d hd := by
    rcases (h.live_iff d).mp hd with hlive | ⟨rfl, hdir⟩
    · exact (h.kept hlive).1.trans (hv.dot d hlive)
    · exact (h.child.of_dir hdir).2.1
  parent d hd hroot := by
    rcases (h.live_iff d).mp hd with hlive | ⟨rfl, hdir⟩
    · obtain ⟨q, hdotdot, hq⟩ := hv.parent d hlive hroot
      refine ⟨q, (h.kept hlive).2.trans hdotdot, fun e => ?_⟩
      have hne : d ≠ c := fun heq => h.child.not_live (heq ▸ hlive)
      rw [h.namesIn_eq, if_neg fun hn => hne hn.2, Nat.add_zero, hq]
    · obtain ⟨hfree, -, hdotdot, -⟩ := h.child.of_dir hdir
      refine ⟨p, hdotdot, fun e => ?_⟩
      have hzero : namesIn v e d = 0 := by
        by_contra hname
        rw [hv.named e d hname] at hfree
        cases hfree
      rw [h.namesIn_eq, hzero, Nat.zero_add]
      simp only [and_true]
  rooted d hd := by
    have hold : ∀ j, LiveDir v j → Rooted (parentOf v') rootIno j := fun j hj =>
      Rooted.congr (s := {j | LiveDir v j}) (fun j hj _ => hv.live_parentOf hj)
        (fun j hj _ => h.parentOf_eq hj) hj (hv.rooted j hj)
    rcases (h.live_iff d).mp hd with hlive | ⟨rfl, hdir⟩
    · exact hold d hlive
    · refine .step ?_
      rw [parentOf, (h.child.of_dir hdir).2.2.1]
      exact hold p h.live

end Linked

/-! ## A name taken away -/

section Unlinked

variable {p : ℕ} {name : Name} {c : ℕ}

theorem OldName.type_eq {d d' : Inode} (h : OldName d d') : d'.type = d.type := by
  cases h <;> rfl

theorem OldName.inUse {d d' : Inode} (h : OldName d d') (hused : d'.inUse = true) :
    d.inUse = true := by
  cases h with
  | dir => cases hused
  | last => cases hused
  | more => exact hused

/-- A directory without its name is gone. -/
theorem OldName.of_dir {d d' : Inode} (h : OldName d d') (hdir : d.type = .dir) :
    d.entries = [] ∧ d'.inUse = false := by
  cases h with
  | dir _ _ hempty => exact ⟨hempty, rfl⟩
  | last _ hfile => exact absurd hdir hfile
  | more hfile => exact absurd hdir hfile

theorem OldName.not_live {d d' : Inode} (h : OldName d d') : ¬ d'.LiveDir := by
  rintro ⟨hused, htype⟩
  rw [(h.of_dir (h.type_eq ▸ htype)).2] at hused
  cases hused

theorem Unlinked.parent_eq (h : Unlinked v v' p name c) :
    ∃ links, v'.inodes p = { eraseName name (v.inodes p) with linksCnt := links } := by
  obtain ⟨links, hlinks⟩ := countLink_dec ((v.inodes c).type == .dir)
    (eraseName name (v.inodes p))
  exact ⟨links, h.parent.trans hlinks⟩

theorem Unlinked.live_iff (h : Unlinked v v' p name c) (j : ℕ) :
    LiveDir v' j ↔ LiveDir v j ∧ j ≠ c := by
  by_cases hc : j = c
  · subst hc
    exact iff_of_false h.child.not_live fun hn => hn.2 rfl
  · rw [and_iff_left hc]
    by_cases hp : j = p
    · obtain ⟨links, heq⟩ := h.parent_eq
      rw [hp, LiveDir, heq]
      rfl
    · rw [LiveDir, LiveDir, h.frame j hp hc]

theorem Unlinked.live_parent (h : Unlinked v v' p name c) : LiveDir v' p :=
  (h.live_iff p).mpr ⟨h.live, h.ne.symm⟩

theorem Unlinked.perm (h : Unlinked v v' p name c) :
    (v.inodes p).entries.Perm (⟨name, c⟩ :: (v'.inodes p).entries) := by
  obtain ⟨links, heq⟩ := h.parent_eq
  rw [heq]
  exact eraseName_perm h.found

theorem Unlinked.namesIn_eq (h : Unlinked v v' p name c) (d i : ℕ) :
    namesIn v d i = namesIn v' d i + if d = p ∧ i = c then 1 else 0 := by
  by_cases hp : d = p
  · subst hp
    rw [namesIn_of_cons h.live_parent h.live h.perm]
    simp only [true_and]
  · rw [if_neg fun hn => hp hn.1, Nat.add_zero]
    by_cases hc : d = c
    · subst hc
      rw [namesIn_of_not_live (v := v') h.child.not_live]
      by_cases hdir : (v.inodes d).type = .dir
      · rw [namesIn, Inode.countOf, (h.child.of_dir hdir).1, List.countP_nil, ite_self]
      · exact namesIn_of_not_live (fun hlive => hdir hlive.2) i
    · exact (namesIn_congr (h.frame d hp hc) i).symm

/-- What the directories that stay keep. -/
theorem Unlinked.kept (h : Unlinked v v' p name c) {d : ℕ} (hd : d ≠ c) :
    (v'.inodes d).dot = (v.inodes d).dot ∧ (v'.inodes d).dotdot = (v.inodes d).dotdot := by
  by_cases hp : d = p
  · obtain ⟨links, heq⟩ := h.parent_eq
    rw [hp, heq]
    exact ⟨rfl, rfl⟩
  · rw [h.frame d hp hd]
    exact ⟨rfl, rfl⟩

theorem Unlinked.parentOf_eq (h : Unlinked v v' p name c) {d : ℕ} (hd : d ≠ c) :
    parentOf v' d = parentOf v d := by
  rw [parentOf, parentOf, (h.kept hd).2]

theorem Unlinked.named_child (h : Unlinked v v' p name c) : namesIn v p c ≠ 0 := by
  rw [h.namesIn_eq, if_pos ⟨rfl, rfl⟩]
  exact Nat.succ_ne_zero _

theorem Unlinked.ne_root (h : Unlinked v v' p name c) (hv : Tree v) : c ≠ rootIno := fun heq =>
  h.named_child (heq ▸ hv.rootUnnamed p)

/-- No directory that stays hangs below the inode that lost its name. -/
theorem Unlinked.parentOf_ne (h : Unlinked v v' p name c) (hv : Tree v) {d : ℕ}
    (hd : LiveDir v d) (hroot : d ≠ rootIno) : parentOf v d ≠ c := by
  intro heq
  obtain ⟨q, hdotdot, hq⟩ := hv.parent d hd hroot
  have hqc : q = c := by
    rw [parentOf, hdotdot] at heq
    exact heq
  have hone := hq c
  rw [if_pos hqc.symm] at hone
  have hlive : LiveDir v c := by
    by_contra hlive
    rw [namesIn_of_not_live hlive] at hone
    cases hone
  rw [namesIn, Inode.countOf, (h.child.of_dir hlive.2).1, List.countP_nil, ite_self] at hone
  cases hone

/-- A directory that lost its entry has no other. -/
theorem Unlinked.unnamed_of_dir (h : Unlinked v v' p name c) (hv : Tree v)
    (hdir : (v.inodes c).type = .dir) (d : ℕ) : namesIn v' d c = 0 := by
  have hused := hv.named p c h.named_child
  obtain ⟨q, -, hq⟩ := hv.parent c ⟨hused, hdir⟩ (h.ne_root hv)
  have hp : namesIn v p c = namesIn v' p c + 1 := by
    rw [h.namesIn_eq, if_pos ⟨rfl, rfl⟩]
  rw [hq] at hp
  by_cases hdp : d = p
  · rw [hdp]
    split at hp <;> omega
  · have hd : namesIn v d c = namesIn v' d c := by
      rw [h.namesIn_eq, if_neg fun hn => hdp hn.1, Nat.add_zero]
    rw [hq] at hd
    split at hp <;> split at hd <;> omega

/-- **Taking a name away keeps the tree**, if an inode that is freed has no other name. -/
theorem Tree.unlinked (hv : Tree v) (h : Unlinked v v' p name c)
    (hlast : (v.inodes c).type ≠ .dir → (v'.inodes c).inUse = false → ∀ d, namesIn v' d c = 0) :
    Tree v' where
  root := (h.live_iff _).mpr ⟨hv.root, (h.ne_root hv).symm⟩
  bounded i hi := by
    rw [h.inodesCount]
    refine hv.bounded i ?_
    by_cases hc : i = c
    · subst hc
      exact h.child.inUse hi
    · by_cases hp : i = p
      · rw [hp]
        exact h.live.1
      · rwa [h.frame i hp hc] at hi
  named d i hname := by
    by_cases hc : i = c
    · subst hc
      by_contra hfree
      rw [Bool.not_eq_true] at hfree
      by_cases hdir : (v.inodes i).type = .dir
      · exact hname (h.unnamed_of_dir hv hdir d)
      · exact hname (hlast hdir hfree d)
    · by_cases hp : i = p
      · rw [hp]
        exact h.live_parent.1
      · rw [h.frame i hp hc]
        refine hv.named d i ?_
        rwa [h.namesIn_eq, if_neg fun hn => hc hn.2]
  rootUnnamed d := by
    have hd := h.namesIn_eq d rootIno
    rw [hv.rootUnnamed] at hd
    omega
  rootDotdot := (h.kept (h.ne_root hv).symm).2.trans hv.rootDotdot
  names d hd := by
    obtain ⟨hlive, hc⟩ := (h.live_iff d).mp hd
    by_cases hp : d = p
    · subst hp
      exact ((hv.names d h.live).perm h.perm.symm).tail
    · rw [h.frame d hp hc]
      exact hv.names d hlive
  dot d hd := by
    obtain ⟨hlive, hc⟩ := (h.live_iff d).mp hd
    exact (h.kept hc).1.trans (hv.dot d hlive)
  parent d hd hroot := by
    obtain ⟨hlive, hc⟩ := (h.live_iff d).mp hd
    obtain ⟨q, hdotdot, hq⟩ := hv.parent d hlive hroot
    refine ⟨q, (h.kept hc).2.trans hdotdot, fun e => ?_⟩
    have he := h.namesIn_eq e d
    rw [if_neg fun hn => hc hn.2, Nat.add_zero] at he
    rw [← he, hq]
  rooted d hd := by
    obtain ⟨hlive, hc⟩ := (h.live_iff d).mp hd
    exact Rooted.congr (s := {j | LiveDir v j ∧ j ≠ c})
      (fun j hj hroot => ⟨hv.live_parentOf hj.1, h.parentOf_ne hv hj.1 hroot⟩)
      (fun j hj _ => h.parentOf_eq hj.2) ⟨hlive, hc⟩ (hv.rooted d hlive)

end Unlinked

/-! ## An entry moved -/

section Moved

variable {sp : ℕ} {sn : Name} {dp : ℕ} {dn : Name} {c : ℕ}

theorem Moved.child_eq (h : Moved v v' sp sn dp dn c) :
    ((v.inodes c).type = .dir ∧ v'.inodes c = { v.inodes c with dotdot := some dp }) ∨
      ((v.inodes c).type ≠ .dir ∧ v'.inodes c = v.inodes c) := by
  have hchild := h.child
  by_cases hdir : (v.inodes c).type = .dir
  · rw [hdir] at hchild
    exact .inl ⟨hdir, hchild⟩
  · rw [beq_eq_false_iff_ne.mpr hdir] at hchild
    exact .inr ⟨hdir, hchild⟩

/-- The directory that an entry leaves, another taking it. -/
theorem Moved.src_eq (h : Moved v v' sp sn dp dn c) (hne : sp ≠ dp) :
    ∃ links, v'.inodes sp = { eraseName sn (v.inodes sp) with linksCnt := links } := by
  obtain ⟨links, hlinks⟩ := countLink_dec ((v.inodes c).type == .dir)
    (eraseName sn (v.inodes sp))
  exact ⟨links, (h.src hne).trans hlinks⟩

theorem Moved.dst_eq (h : Moved v v' sp sn dp dn c) (hne : sp ≠ dp) :
    ∃ pos links, v'.inodes dp = { addEntry pos dn c (v.inodes dp) with linksCnt := links } := by
  obtain ⟨pos, hp⟩ := h.dst hne
  obtain ⟨links, hlinks⟩ := countLink_inc ((v.inodes c).type == .dir) v
    (addEntry pos dn c (v.inodes dp))
  exact ⟨pos, links, hp.trans hlinks⟩

theorem Moved.same_eq (h : Moved v v' sp sn dp dn c) (heq : sp = dp) :
    ∃ pos links, v'.inodes sp =
      eraseName sn { addEntry pos dn c (v.inodes sp) with linksCnt := links } := by
  obtain ⟨pos, hp⟩ := h.same heq
  obtain ⟨links, hlinks⟩ := countLink_inc ((v.inodes c).type == .dir) v
    (addEntry pos dn c (v.inodes sp))
  rw [hlinks] at hp
  exact ⟨pos, links, hp⟩

/-- What an inode keeps whatever moves. -/
theorem Moved.kept (h : Moved v v' sp sn dp dn c) (j : ℕ) :
    (v'.inodes j).inUse = (v.inodes j).inUse ∧ (v'.inodes j).type = (v.inodes j).type ∧
      (v'.inodes j).dot = (v.inodes j).dot ∧
      (j ≠ c → (v'.inodes j).dotdot = (v.inodes j).dotdot) := by
  by_cases hc : j = c
  · subst hc
    rcases h.child_eq with ⟨-, heq⟩ | ⟨-, heq⟩ <;> rw [heq] <;>
      exact ⟨rfl, rfl, rfl, fun hn => absurd rfl hn⟩
  · by_cases hs : j = sp
    · subst hs
      by_cases heq : j = dp
      · obtain ⟨pos, links, hj⟩ := h.same_eq heq
        rw [hj]
        exact ⟨rfl, rfl, rfl, fun _ => rfl⟩
      · obtain ⟨links, hj⟩ := h.src_eq heq
        rw [hj]
        exact ⟨rfl, rfl, rfl, fun _ => rfl⟩
    · by_cases hd : j = dp
      · subst hd
        obtain ⟨pos, links, hj⟩ := h.dst_eq (Ne.symm hs)
        rw [hj]
        exact ⟨rfl, rfl, rfl, fun _ => rfl⟩
      · rw [h.frame j hs hd hc]
        exact ⟨rfl, rfl, rfl, fun _ => rfl⟩

theorem Moved.live_iff (h : Moved v v' sp sn dp dn c) (j : ℕ) : LiveDir v' j ↔ LiveDir v j := by
  obtain ⟨hused, htype, -, -⟩ := h.kept j
  rw [LiveDir, LiveDir, Inode.LiveDir, Inode.LiveDir, hused, htype]

/-- Within one directory, the entries are the old ones with the new entry for the old. -/
theorem Moved.perm_same (h : Moved v v' sp sn dp dn c) (hgood : GoodNames (v.inodes sp).entries)
    (heq : sp = dp) :
    List.Perm (⟨sn, c⟩ :: (v'.inodes sp).entries) (⟨dn, c⟩ :: (v.inodes sp).entries) := by
  obtain ⟨pos, links, hsp⟩ := h.same_eq heq
  have hadd := addEntry_perm pos dn c (v.inodes sp)
  have hfound : findName (addEntry pos dn c (v.inodes sp)).entries sn = some c := by
    have hmem := mem_of_findName h.found
    refine findName_of_forall (List.mem_map.mpr
      ⟨⟨sn, c⟩, hadd.mem_iff.mpr (List.mem_cons_of_mem _ hmem), rfl⟩) fun e he hname => ?_
    rcases List.mem_cons.mp (hadd.mem_iff.mp he) with rfl | hold
    · rfl
    · have hfind := findName_of_mem hgood.1 hold
      rw [hname, h.found] at hfind
      exact (Option.some.inj hfind).symm
  rw [hsp]
  exact (eraseName_perm (d := { addEntry pos dn c (v.inodes sp) with linksCnt := links })
    hfound).symm.trans hadd

theorem Moved.perm_src (h : Moved v v' sp sn dp dn c) (hne : sp ≠ dp) :
    (v.inodes sp).entries.Perm (⟨sn, c⟩ :: (v'.inodes sp).entries) := by
  obtain ⟨links, heq⟩ := h.src_eq hne
  rw [heq]
  exact eraseName_perm h.found

theorem Moved.perm_dst (h : Moved v v' sp sn dp dn c) (hne : sp ≠ dp) :
    (v'.inodes dp).entries.Perm (⟨dn, c⟩ :: (v.inodes dp).entries) := by
  obtain ⟨pos, links, heq⟩ := h.dst_eq hne
  rw [heq]
  exact addEntry_perm pos dn c (v.inodes dp)

/-- The entries of a directory away from the move. -/
theorem Moved.entries_eq (h : Moved v v' sp sn dp dn c) {d : ℕ} (hs : d ≠ sp) (hd : d ≠ dp) :
    (v'.inodes d).entries = (v.inodes d).entries := by
  by_cases hc : d = c
  · subst hc
    rcases h.child_eq with ⟨-, heq⟩ | ⟨-, heq⟩ <;> rw [heq]
  · rw [h.frame d hs hd hc]

theorem Moved.namesIn_eq (h : Moved v v' sp sn dp dn c)
    (hgood : GoodNames (v.inodes sp).entries) (d i : ℕ) :
    (namesIn v' d i + if d = sp ∧ i = c then 1 else 0) =
      namesIn v d i + if d = dp ∧ i = c then 1 else 0 := by
  by_cases hs : d = sp
  · subst hs
    have hlive' := (h.live_iff d).mpr h.liveSrc
    by_cases heq : d = dp
    · have hcount := (h.perm_same hgood heq).countP_eq fun e => e.inode == i
      rw [List.countP_cons, List.countP_cons] at hcount
      simp only [true_and, ← heq]
      rw [namesIn, namesIn, Inode.countOf, Inode.countOf, if_pos hlive', if_pos h.liveSrc]
      exact congrArg (fun n => n + if i = c then 1 else 0) (Nat.add_right_cancel hcount)
    · rw [if_neg (c := d = dp ∧ i = c) fun hn => heq hn.1, Nat.add_zero,
        namesIn_of_cons hlive' h.liveSrc (h.perm_src heq)]
      simp only [true_and]
  · rw [if_neg fun hn => hs hn.1, Nat.add_zero]
    by_cases hd : d = dp
    · subst hd
      rw [namesIn_of_cons h.liveDst ((h.live_iff d).mpr h.liveDst) (h.perm_dst (Ne.symm hs))]
      simp only [true_and]
    · rw [if_neg fun hn => hd hn.1, Nat.add_zero, namesIn, namesIn, Inode.countOf, Inode.countOf,
        h.entries_eq hs hd]
      exact if_congr (h.live_iff d) rfl rfl

theorem Moved.named_child (h : Moved v v' sp sn dp dn c) : namesIn v sp c ≠ 0 :=
  (namesIn_pos h.liveSrc (mem_of_findName h.found)).ne'

theorem Moved.ne_root (h : Moved v v' sp sn dp dn c) (hv : Tree v) : c ≠ rootIno := fun heq =>
  h.named_child (heq ▸ hv.rootUnnamed sp)

/-- The names of the directories stay good: the new name is free, or it is the old one. -/
theorem Moved.goodNames (h : Moved v v' sp sn dp dn c) (hv : Tree v) {d : ℕ}
    (hlive : LiveDir v d) : GoodNames (v'.inodes d).entries := by
  have hd := hv.names d hlive
  by_cases hs : d = sp
  · subst hs
    by_cases heq : d = dp
    · have hperm := h.perm_same hd heq
      rcases h.absent with habsent | ⟨-, hname⟩
      · rw [← heq] at habsent
        exact ((hd.cons h.plain habsent).perm hperm).tail
      · rw [hname] at hperm
        exact hd.perm hperm.cons_inv
    · exact (hd.perm (h.perm_src heq).symm).tail
  · by_cases hdst : d = dp
    · subst hdst
      have habsent := h.absent.resolve_right fun hn => hs hn.1.symm
      exact (hd.cons h.plain habsent).perm (h.perm_dst (Ne.symm hs))
    · rw [h.entries_eq hs hdst]
      exact hd

theorem Moved.parentOf_eq (h : Moved v v' sp sn dp dn c) {d : ℕ} (hd : d ≠ c) :
    parentOf v' d = parentOf v d := by
  rw [parentOf, parentOf, (h.kept d).2.2.2 hd]

/-- Unless a directory changes its parent, `..` leads where it led. -/
theorem Moved.parentOf_child (h : Moved v v' sp sn dp dn c) (hv : Tree v)
    (hsame : (v.inodes c).type = .dir → sp = dp) : parentOf v' c = parentOf v c := by
  rcases h.child_eq with ⟨hdir, heq⟩ | ⟨-, heq⟩
  · have hlive : LiveDir v c := ⟨hv.named sp c h.named_child, hdir⟩
    have hp := (hv.parentOf_eq hlive h.named_child).2.2
    rw [hp, parentOf, heq, hsame hdir]
    rfl
  · rw [parentOf, heq]
    rfl

/-- **Moving an entry keeps the tree.** -/
theorem Tree.moved (hv : Tree v) (h : Moved v v' sp sn dp dn c) : Tree v' where
  root := (h.live_iff _).mpr hv.root
  bounded i hi := by
    rw [h.inodesCount]
    exact hv.bounded i ((h.kept i).1 ▸ hi)
  named d i hname := by
    rw [(h.kept i).1]
    have hcount := h.namesIn_eq (hv.names sp h.liveSrc) d i
    by_cases hc : i = c
    · rw [hc]
      exact hv.named sp c h.named_child
    · rw [if_neg fun hn => hc hn.2, if_neg fun hn => hc hn.2] at hcount
      refine hv.named d i fun hzero => hname ?_
      exact hcount.trans hzero
  rootUnnamed d := by
    have hcount := h.namesIn_eq (hv.names sp h.liveSrc) d rootIno
    have hc := (h.ne_root hv).symm
    rw [if_neg fun hn => hc hn.2, if_neg fun hn => hc hn.2, hv.rootUnnamed] at hcount
    exact hcount
  rootDotdot := ((h.kept _).2.2.2 (h.ne_root hv).symm).trans hv.rootDotdot
  names d hd := h.goodNames hv ((h.live_iff d).mp hd)
  dot d hd := (h.kept d).2.2.1.trans (hv.dot d ((h.live_iff d).mp hd))
  parent d hd hroot := by
    have hlive := (h.live_iff d).mp hd
    obtain ⟨p, hdotdot, hp⟩ := hv.parent d hlive hroot
    have hcount := fun e => h.namesIn_eq (hv.names sp h.liveSrc) e d
    by_cases hc : d = c
    · subst hc
      -- the one entry was in `sp`, which is where `..` led
      have hsp : p = sp := by
        have hpar := (hv.parentOf_eq hlive h.named_child).2.1
        rw [hdotdot] at hpar
        exact Option.some.inj hpar
      refine ⟨dp, ?_, fun e => ?_⟩
      · rcases h.child_eq with ⟨-, heq⟩ | ⟨hfile, -⟩
        · rw [heq]
        · exact absurd hlive.2 hfile
      · have he := hcount e
        rw [hp, hsp] at he
        simp only [and_true] at he
        omega
    · refine ⟨p, ((h.kept d).2.2.2 hc).trans hdotdot, fun e => ?_⟩
      have he := hcount e
      rw [if_neg fun hn => hc hn.2, if_neg fun hn => hc hn.2] at he
      exact he.trans (hp e)
  rooted d hd := by
    have hlive := (h.live_iff d).mp hd
    by_cases hsame : (v.inodes c).type = .dir → sp = dp
    · have hall : ∀ j, parentOf v' j = parentOf v j := fun j => by
        by_cases hc : j = c
        · rw [hc, h.parentOf_child hv hsame]
        · exact h.parentOf_eq hc
      rw [funext hall]
      exact hv.rooted d hlive
    · push Not at hsame
      obtain ⟨hdir, hne⟩ := hsame
      refine Rooted.move (fun j hj => h.parentOf_eq hj) ?_ (hv.rooted d hlive)
      have hc : parentOf v' c = dp := by
        rcases h.child_eq with ⟨-, heq⟩ | ⟨hfile, -⟩
        · rw [parentOf, heq]
          rfl
        · exact absurd hdir hfile
      rw [hc]
      exact h.avoids hdir hne

end Moved

end Ext4b

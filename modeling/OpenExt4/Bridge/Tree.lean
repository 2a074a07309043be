import Mathlib.Data.List.Nodup
import OpenExt4.Bridge.Ops
import OpenExt4.Lib.Ancestry

set_option autoImplicit false

/-! # The tree of directories

A volume whose directories form a tree (`Tree`), the three things a call can do to the names of a
volume (`Linked`, `Unlinked`, `Moved`), and that each of them keeps the tree. -/

namespace Ext4b

open Ancestry

/-! ## Directories and the names in them -/

/-- An allocated directory. -/
def Inode.LiveDir (d : Inode) : Prop := d.inUse = true ∧ d.type = .dir

instance (d : Inode) : Decidable d.LiveDir := inferInstanceAs (Decidable (_ ∧ _))

/-- How many entries other than `.` and `..` name inode `i`. -/
def Inode.countOf (d : Inode) (i : ℕ) : ℕ :=
  if d.LiveDir then d.entries.countP fun e => e.inode == i else 0

/-- Inode `d` is an allocated directory. -/
abbrev LiveDir (v : Volume) (d : ℕ) : Prop := (v.inodes d).LiveDir

/-- How many entries of `d` other than `.` and `..` name inode `i`. -/
def namesIn (v : Volume) (d i : ℕ) : ℕ := (v.inodes d).countOf i

/-- Where `..` leads. -/
def parentOf (v : Volume) (d : ℕ) : ℕ := (v.inodes d).dotdot.getD 0

/-- The entries of a directory have one name each, and none is `.` or `..`. -/
def GoodNames (es : List Dirent) : Prop :=
  (es.map Dirent.name).Nodup ∧ ∀ e ∈ es, Plain e.name

/-- The allocated directories are a tree: each but the root is named by one entry, its `.` names
    itself, its `..` the directory with that entry, and `..` leads to the root. -/
structure Tree (v : Volume) : Prop where
  root : LiveDir v rootIno
  bounded : ∀ i, (v.inodes i).inUse = true → 0 < i ∧ i ≤ v.inodesCount
  named : ∀ d i, namesIn v d i ≠ 0 → (v.inodes i).inUse = true
  rootUnnamed : ∀ d, namesIn v d rootIno = 0
  rootDotdot : (v.inodes rootIno).dotdot = some rootIno
  names : ∀ d, LiveDir v d → GoodNames (v.inodes d).entries
  dot : ∀ d, LiveDir v d → (v.inodes d).dot = some d
  parent : ∀ c, LiveDir v c → c ≠ rootIno →
    ∃ p, (v.inodes c).dotdot = some p ∧ ∀ d, namesIn v d c = if d = p then 1 else 0
  rooted : ∀ c, LiveDir v c → Rooted (parentOf v) rootIno c

section Basic

variable {v : Volume}

theorem namesIn_of_not_live {d : ℕ} (h : ¬ LiveDir v d) (i : ℕ) : namesIn v d i = 0 := if_neg h

theorem namesIn_pos {d : ℕ} (hd : LiveDir v d) {e : Dirent} (he : e ∈ (v.inodes d).entries) :
    0 < namesIn v d e.inode := by
  rw [namesIn, Inode.countOf, if_pos hd, List.countP_pos_iff]
  exact ⟨e, he, beq_self_eq_true _⟩

theorem namesIn_congr {v' : Volume} {d : ℕ} (h : v'.inodes d = v.inodes d) (i : ℕ) :
    namesIn v' d i = namesIn v d i := by
  rw [namesIn, namesIn, h]

/-- One more entry. -/
theorem namesIn_of_cons {v' : Volume} {d : ℕ} {name : Name} {c : ℕ} (hd : LiveDir v d)
    (hd' : LiveDir v' d)
    (h : (v'.inodes d).entries.Perm (⟨name, c⟩ :: (v.inodes d).entries)) (i : ℕ) :
    namesIn v' d i = namesIn v d i + if i = c then 1 else 0 := by
  rw [namesIn, namesIn, Inode.countOf, Inode.countOf, if_pos hd, if_pos hd', h.countP_eq,
    List.countP_cons]
  by_cases hi : i = c
  · rw [if_pos hi, if_pos (beq_iff_eq.mpr hi.symm)]
  · rw [if_neg hi, if_neg fun hbeq => hi (beq_iff_eq.mp hbeq).symm]

theorem GoodNames.perm {es es' : List Dirent} (h : GoodNames es) (hperm : es'.Perm es) :
    GoodNames es' :=
  ⟨(hperm.map _).nodup_iff.mpr h.1, fun e he => h.2 e (hperm.mem_iff.mp he)⟩

theorem GoodNames.cons {es : List Dirent} (h : GoodNames es) {name : Name} {c : ℕ}
    (hplain : Plain name) (habsent : name ∉ es.map Dirent.name) :
    GoodNames (⟨name, c⟩ :: es) := by
  refine ⟨List.nodup_cons.mpr ⟨habsent, h.1⟩, fun e he => ?_⟩
  rcases List.mem_cons.mp he with rfl | hmem
  · exact hplain
  · exact h.2 e hmem

theorem GoodNames.tail {e : Dirent} {es : List Dirent} (h : GoodNames (e :: es)) : GoodNames es :=
  ⟨(List.nodup_cons.mp h.1).2, fun x hx => h.2 x (List.mem_cons_of_mem _ hx)⟩

/-- The parent of a directory is the one directory with an entry for it. -/
theorem Tree.parentOf_eq (hv : Tree v) {c d : ℕ} (hc : LiveDir v c) (hname : namesIn v d c ≠ 0) :
    c ≠ rootIno ∧ (v.inodes c).dotdot = some d ∧ parentOf v c = d := by
  have hroot : c ≠ rootIno := fun h => hname (h ▸ hv.rootUnnamed d)
  obtain ⟨p, hdotdot, hp⟩ := hv.parent c hc hroot
  have hdp : d = p := by
    by_contra hne
    exact hname ((hp d).trans (if_neg hne))
  refine ⟨hroot, hdp ▸ hdotdot, ?_⟩
  rw [parentOf, hdotdot, hdp]
  rfl

theorem Tree.parentOf_root (hv : Tree v) : parentOf v rootIno = rootIno := by
  rw [parentOf, hv.rootDotdot]
  rfl

/-- The walk stays among the allocated directories. -/
theorem Tree.live_parentOf (hv : Tree v) {c : ℕ} (hc : LiveDir v c) : LiveDir v (parentOf v c) := by
  by_cases hroot : c = rootIno
  · rw [hroot, hv.parentOf_root]
    exact hv.root
  · obtain ⟨p, hdotdot, hp⟩ := hv.parent c hc hroot
    have hpc : parentOf v c = p := by
      rw [parentOf, hdotdot]
      rfl
    rw [hpc]
    by_contra hlive
    have hone := hp p
    rw [namesIn_of_not_live hlive, if_pos rfl] at hone
    cases hone

/-- No directory holds an entry for itself. -/
theorem Tree.namesIn_self (hv : Tree v) {d : ℕ} (hd : LiveDir v d) : namesIn v d d = 0 := by
  by_contra hname
  obtain ⟨hroot, -, hself⟩ := hv.parentOf_eq hd hname
  exact hroot ((hv.rooted d hd).eq_root hself)

end Basic

/-! ## What a call does to the names -/

/-- The parent's link count follows the entry of a directory. -/
def countLink (isDir : Bool) (f : Inode → Inode) (d : Inode) : Inode := if isDir then f d else d

/-- The inode that got a new name: a fresh directory, another fresh inode, or one that was there. -/
inductive NewName (v : Volume) (p c : ℕ) : Inode → Prop
  | dir : (v.inodes c).inUse = false → 0 < c → c ≤ v.inodesCount →
      NewName v p c (initDir v p c (freshInode .dir))
  | other {type : ItemType} : type ≠ .dir → (v.inodes c).inUse = false → 0 < c →
      c ≤ v.inodesCount → NewName v p c (linksCountInc v (freshInode type))
  | link : (v.inodes c).inUse = true → (v.inodes c).type ≠ .dir →
      NewName v p c (linksCountInc v (v.inodes c))

/-- The inode that lost a name: an empty directory, another inode with its last name, or one that
    has more. -/
inductive OldName (d : Inode) : Inode → Prop
  | dir (now : ℕ) : d.type = .dir → d.entries = [] →
      OldName d (freedInode now { d with linksCnt := 0 })
  | last (now : ℕ) : d.type ≠ .dir → (linksCountDec d).linksCnt = 0 →
      OldName d (freedInode now (linksCountDec d))
  | more : d.type ≠ .dir → (linksCountDec d).linksCnt ≠ 0 → OldName d (linksCountDec d)

/-- Directory `p` gains the entry `name` for `c`. -/
structure Linked (v v' : Volume) (p : ℕ) (name : Name) (c : ℕ) : Prop where
  inodesCount : v'.inodesCount = v.inodesCount
  dirIndex : v'.dirIndex = v.dirIndex
  frame : ∀ j, j ≠ p → j ≠ c → v'.inodes j = v.inodes j
  live : LiveDir v p
  ne : c ≠ p
  plain : Plain name
  absent : name ∉ (v.inodes p).entries.map Dirent.name
  parent : ∃ pos, v'.inodes p =
    countLink ((v'.inodes c).type == .dir) (linksCountInc v) (addEntry pos name c (v.inodes p))
  child : NewName v p c (v'.inodes c)

/-- Directory `p` loses the entry `name` for `c`. -/
structure Unlinked (v v' : Volume) (p : ℕ) (name : Name) (c : ℕ) : Prop where
  inodesCount : v'.inodesCount = v.inodesCount
  dirIndex : v'.dirIndex = v.dirIndex
  frame : ∀ j, j ≠ p → j ≠ c → v'.inodes j = v.inodes j
  live : LiveDir v p
  ne : c ≠ p
  found : findName (v.inodes p).entries name = some c
  parent : v'.inodes p =
    countLink ((v.inodes c).type == .dir) linksCountDec (eraseName name (v.inodes p))
  child : OldName (v.inodes c) (v'.inodes c)

/-- The entry `sn` of `sp` becomes the entry `dn` of `dp`. -/
structure Moved (v v' : Volume) (sp : ℕ) (sn : Name) (dp : ℕ) (dn : Name) (c : ℕ) : Prop where
  inodesCount : v'.inodesCount = v.inodesCount
  dirIndex : v'.dirIndex = v.dirIndex
  frame : ∀ j, j ≠ sp → j ≠ dp → j ≠ c → v'.inodes j = v.inodes j
  liveSrc : LiveDir v sp
  liveDst : LiveDir v dp
  neSrc : c ≠ sp
  neDst : c ≠ dp
  plain : Plain dn
  found : findName (v.inodes sp).entries sn = some c
  absent : dn ∉ (v.inodes dp).entries.map Dirent.name ∨ sp = dp ∧ sn = dn
  same : sp = dp → ∃ pos, v'.inodes sp = eraseName sn
    (countLink ((v.inodes c).type == .dir) (linksCountInc v) (addEntry pos dn c (v.inodes sp)))
  src : sp ≠ dp → v'.inodes sp =
    countLink ((v.inodes c).type == .dir) linksCountDec (eraseName sn (v.inodes sp))
  dst : sp ≠ dp → ∃ pos, v'.inodes dp =
    countLink ((v.inodes c).type == .dir) (linksCountInc v) (addEntry pos dn c (v.inodes dp))
  child : v'.inodes c =
    countLink ((v.inodes c).type == .dir) (fun d => { d with dotdot := some dp }) (v.inodes c)
  avoids : (v.inodes c).type = .dir → sp ≠ dp → Avoids (parentOf v) rootIno c dp

/-- Only the count changes. -/
theorem countLink_inc (isDir : Bool) (v : Volume) (d : Inode) :
    ∃ links, countLink isDir (linksCountInc v) d = { d with linksCnt := links } := by
  cases isDir with
  | true => exact ⟨_, rfl⟩
  | false => exact ⟨d.linksCnt, rfl⟩

theorem countLink_dec (isDir : Bool) (d : Inode) :
    ∃ links, countLink isDir linksCountDec d = { d with linksCnt := links } := by
  cases isDir with
  | true => exact ⟨_, rfl⟩
  | false => exact ⟨d.linksCnt, rfl⟩

end Ext4b

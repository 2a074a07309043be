import Mathlib.Data.List.Perm.Basic
import Mathlib.Data.Nat.Notation
import Mathlib.Logic.Function.Basic
import Mathlib.Tactic.Ring

set_option autoImplicit false

/-! # Inodes and names

What the calls of `ext4_bridge.c` that make, move and remove names work on: the inodes with their
type, flags, link count and deletion time, the entries of the directories, and the head of the
orphan list. A directory is its `.` and `..` (which an index keeps apart in its first block) and a
list of entries; where in the list a new entry lands is the caller's to say, since a linear
directory and an index differ in that. Block allocation and the device are left out: what fails for
want of space or by the device does not return success. -/

namespace Ext4b

/-! ## The data -/

/-- The name of an entry, in bytes. -/
abbrev Name : Type := List UInt8

def dotName : Name := [0x2E]

def dotdotName : Name := [0x2E, 0x2E]

/-- `struct ext4_dir_en`. -/
structure Dirent where
  name : Name
  inode : ℕ
  deriving DecidableEq

/-- `ext4b_item_type`. -/
inductive ItemType where
  | file
  | dir
  | symlink
  | fifo
  | chardev
  | blockdev
  | socket
  deriving DecidableEq, Repr

/-- The errors of the bridge, and the loop that does not end. -/
inductive Errno where
  | EPERM
  | ENOENT
  | EIO
  | EBUSY
  | EEXIST
  | ENOTDIR
  | EISDIR
  | EINVAL
  | ENOSPC
  | ENAMETOOLONG
  | ENOTEMPTY
  | diverges
  deriving DecidableEq, Repr

/-- The fields of `struct ext4_inode` and the data of a directory. `inUse` is the bit of the inode
    in the inode bitmap. -/
structure Inode where
  inUse : Bool
  type : ItemType
  index : Bool
  immutable : Bool
  appendOnly : Bool
  linksCnt : ℕ
  delTime : ℕ
  dot : Option ℕ
  dotdot : Option ℕ
  entries : List Dirent

/-- The mounted volume. -/
structure Volume where
  inodes : ℕ → Inode
  inodesCount : ℕ
  firstInode : ℕ
  lastOrphan : ℕ
  dirIndex : Bool

/-- `EXT4_INODE_ROOT_INDEX`. -/
abbrev rootIno : ℕ := 2

/-- `EXT4_DIRECTORY_FILENAME_LEN`. -/
def EXT4_DIRECTORY_FILENAME_LEN : ℕ := 255

/-- `EXT4_LINK_MAX`. -/
def EXT4_LINK_MAX : ℕ := 65000

/-- What a call gives; one that fails has left the changes it made so far. -/
abbrev Result (α : Type) : Type := Except (Errno × Volume) α

/-! ## Writing one inode -/

/-- Inode `i` rewritten by `f`. -/
def Volume.modify (v : Volume) (i : ℕ) (f : Inode → Inode) : Volume :=
  { v with inodes := Function.update v.inodes i (f (v.inodes i)) }

section Modify

variable (v : Volume) (i : ℕ) (f : Inode → Inode)

@[simp] theorem Volume.modify_self : (v.modify i f).inodes i = f (v.inodes i) :=
  Function.update_self ..

@[simp] theorem Volume.modify_of_ne {j : ℕ} (h : j ≠ i) : (v.modify i f).inodes j = v.inodes j :=
  Function.update_of_ne h ..

/-- Only what `f` makes of this inode matters. -/
theorem Volume.modify_congr {g : Inode → Inode} (h : f (v.inodes i) = g (v.inodes i)) :
    v.modify i f = v.modify i g := by
  rw [Volume.modify, Volume.modify, h]

theorem Volume.modify_eq_self (h : f (v.inodes i) = v.inodes i) : v.modify i f = v := by
  rw [Volume.modify, h, Function.update_eq_self]

@[simp] theorem Volume.modify_inodesCount : (v.modify i f).inodesCount = v.inodesCount := rfl

@[simp] theorem Volume.modify_firstInode : (v.modify i f).firstInode = v.firstInode := rfl

@[simp] theorem Volume.modify_lastOrphan : (v.modify i f).lastOrphan = v.lastOrphan := rfl

@[simp] theorem Volume.modify_dirIndex : (v.modify i f).dirIndex = v.dirIndex := rfl

end Modify

/-! ## Entries -/

/-- The directory is searched through its index. -/
def isDx (v : Volume) (d : Inode) : Bool := v.dirIndex && d.index

/-- The first entry of a name. -/
def findName (es : List Dirent) (name : Name) : Option ℕ :=
  (es.find? fun e => e.name == name).map Dirent.inode

/-- `ext4_dir_find_entry`. The index has neither `.` nor `..`; the linear search meets them
    first. -/
def findEntry (v : Volume) (d : Inode) (name : Name) : Option ℕ :=
  if isDx v d then findName d.entries name
  else if name = dotName then d.dot.orElse fun _ => findName d.entries name
  else if name = dotdotName then d.dotdot.orElse fun _ => findName d.entries name
  else findName d.entries name

/-- `ext4_dir_add_entry`, which does not look whether the name is there; `pos` is where the entry
    lands. -/
def addEntry (pos : ℕ) (name : Name) (ino : ℕ) (d : Inode) : Inode :=
  { d with entries := d.entries.take pos ++ ⟨name, ino⟩ :: d.entries.drop pos }

/-- Take the first entry of a name away. -/
def eraseName (name : Name) (d : Inode) : Inode :=
  { d with entries := d.entries.eraseP fun e => e.name == name }

/-- What `ext4_dir_remove_entry` makes of the directory: the entry its lookup finds goes. -/
def eraseEntry (v : Volume) (name : Name) (d : Inode) : Inode :=
  if isDx v d then eraseName name d
  else if name = dotName ∧ d.dot ≠ none then { d with dot := none }
  else if name = dotdotName ∧ d.dotdot ≠ none then { d with dotdot := none }
  else eraseName name d

/-- `ext4_dir_remove_entry`. -/
def removeEntry (v : Volume) (dir : ℕ) (name : Name) : Result Volume :=
  if (v.inodes dir).type ≠ .dir then .error (Errno.ENOTDIR, v)
  else
    match findEntry v (v.inodes dir) name with
    | none => .error (Errno.ENOENT, v)
    | some _ => .ok (v.modify dir (eraseEntry v name))

/-- `dir_has_children`. -/
def dirHasChildren (d : Inode) : Bool :=
  d.entries.any fun e => e.name != dotName && e.name != dotdotName

/-- `dir_parent_inode`: the `..` of the first block, 0 if the block cannot be read or has none. -/
def dirParentInode (v : Volume) (unreadable : ℕ → Bool) (dir : ℕ) : ℕ :=
  if unreadable dir then 0 else (v.inodes dir).dotdot.getD 0

/-- A name that is neither `.` nor `..`. -/
def Plain (name : Name) : Prop := name ≠ dotName ∧ name ≠ dotdotName

instance (name : Name) : Decidable (Plain name) := inferInstanceAs (Decidable (_ ∧ _))

theorem findEntry_of_plain {v : Volume} {d : Inode} {name : Name} (h : Plain name) :
    findEntry v d name = findName d.entries name := by
  unfold findEntry
  rw [if_neg h.1, if_neg h.2, ite_self]

theorem eraseEntry_of_plain {v : Volume} {d : Inode} {name : Name} (h : Plain name) :
    eraseEntry v name d = eraseName name d := by
  have hdot : ¬ (name = dotName ∧ d.dot ≠ none) := fun hn => h.1 hn.1
  have hdotdot : ¬ (name = dotdotName ∧ d.dotdot ≠ none) := fun hn => h.2 hn.1
  unfold eraseEntry
  rw [if_neg hdot, if_neg hdotdot, ite_self]

/-- The added entry is one more, wherever it lands. -/
theorem addEntry_perm (pos : ℕ) (name : Name) (ino : ℕ) (d : Inode) :
    (addEntry pos name ino d).entries.Perm (⟨name, ino⟩ :: d.entries) := by
  have hmiddle : (addEntry pos name ino d).entries.Perm
      (⟨name, ino⟩ :: (d.entries.take pos ++ d.entries.drop pos)) := List.perm_middle
  rwa [List.take_append_drop] at hmiddle

/-- What is found is an entry, and the one that is taken away. -/
theorem eraseName_perm {name : Name} {d : Inode} {ino : ℕ}
    (h : findName d.entries name = some ino) :
    d.entries.Perm (⟨name, ino⟩ :: (eraseName name d).entries) := by
  unfold findName at h
  unfold eraseName
  dsimp only
  generalize d.entries = es at h
  induction es with
  | nil => cases h
  | cons e es ih =>
      rw [List.find?_cons] at h
      rw [List.eraseP_cons]
      cases hname : e.name == name with
      | true =>
          rw [hname] at h
          have heq : e = ⟨name, ino⟩ := by
            cases h
            rw [← beq_iff_eq.mp hname]
          simp only [cond_true, heq, List.Perm.refl]
      | false =>
          rw [hname] at h
          simp only [cond_false]
          exact ((ih h).cons e).trans (List.Perm.swap ..)

theorem findName_eq_none {es : List Dirent} {name : Name} :
    findName es name = none ↔ name ∉ es.map Dirent.name := by
  unfold findName
  rw [Option.map_eq_none_iff, List.find?_eq_none]
  simp

/-- With one entry a name, the entry is found. -/
theorem findName_of_mem {es : List Dirent} (hnodup : (es.map Dirent.name).Nodup) {e : Dirent}
    (he : e ∈ es) : findName es e.name = some e.inode := by
  induction es with
  | nil => cases he
  | cons x es ih =>
      rw [List.map_cons, List.nodup_cons] at hnodup
      unfold findName
      rw [List.find?_cons]
      rcases List.mem_cons.mp he with rfl | hmem
      · simp
      · have hne : x.name ≠ e.name := fun heq =>
          hnodup.1 (heq ▸ List.mem_map_of_mem hmem)
        have hbeq : (x.name == e.name) = false := beq_eq_false_iff_ne.mpr hne
        rw [hbeq]
        exact ih hnodup.2 hmem

theorem mem_of_findName {es : List Dirent} {name : Name} {ino : ℕ}
    (h : findName es name = some ino) : ⟨name, ino⟩ ∈ es := by
  obtain ⟨e, he, hino⟩ := Option.map_eq_some_iff.mp h
  have hname : e.name = name :=
    beq_iff_eq.mp (List.find?_some (p := fun x : Dirent => x.name == name) he)
  subst hname
  subst hino
  exact List.mem_of_find?_eq_some he

/-- Where every entry of the name is for one inode, that inode is found. -/
theorem findName_of_forall {es : List Dirent} {name : Name} {ino : ℕ}
    (hmem : name ∈ es.map Dirent.name) (hall : ∀ e ∈ es, e.name = name → e.inode = ino) :
    findName es name = some ino := by
  cases hfind : findName es name with
  | none => exact absurd hmem (findName_eq_none.mp hfind)
  | some i =>
      have hino : i = ino := hall ⟨name, i⟩ (mem_of_findName hfind) rfl
      rw [hino]

/-! ## Link counts -/

/-- `ext4_fs_inode_links_count_inc`, with 16 bits to count in; an indexed directory with too many
    links counts 1 and stays there. -/
def linksCountInc (v : Volume) (d : Inode) : Inode :=
  let link := (d.linksCnt + 1) % 2 ^ 16
  { d with
    linksCnt := if isDx v d ∧ link > 1 ∧ (link ≥ EXT4_LINK_MAX ∨ link = 2) then 1 else link }

/-- `ext4_fs_inode_links_count_dec`. -/
def linksCountDec (d : Inode) : Inode :=
  { d with
    linksCnt :=
      if d.type ≠ .dir then d.linksCnt - 1
      else if d.linksCnt > 2 then d.linksCnt - 1
      else d.linksCnt }

theorem linksCountDec_le (d : Inode) : (linksCountDec d).linksCnt ≤ d.linksCnt := by
  unfold linksCountDec
  dsimp only
  split
  · exact Nat.sub_le _ _
  · split
    · exact Nat.sub_le _ _
    · exact Nat.le_refl _

end Ext4b

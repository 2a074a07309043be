import OpenExt4.Balloc.Bitmap
import OpenExt4.Bridge.Volume
import OpenExt4.Lib.Worklist

set_option autoImplicit false

/-! # The check of the tree

`ext4b_check_tree` (`ext4_check.c`) walks the directories of a mounted volume with a list of inodes
still to descend into and a bitmap of those it met, and checks the answers of the calls it makes
against each other. Those calls (`ext4b_statfs`, `ext4b_getattr`, `ext4b_readdir`) and the
allocator are given; on one image a call answers the same each time. -/

namespace Ext4b.Check

/-! ## What the check asks -/

/-- The attributes the check looks at; no type is `EXT4B_TYPE_UNKNOWN`. -/
structure Attrs where
  type : Option ItemType
  linkCount : ℕ
  deriving DecidableEq

/-- What `ext4b_readdir` hands to its callback. -/
structure Entry where
  name : Name
  inode : ℕ
  type : Option ItemType
  deriving DecidableEq

/-- The answers of the calls, with their error numbers. An enumeration gives the entries it got
    through and then how it ended. Of the allocator: whether it has that many bytes. -/
structure Device where
  statfs : Except ℕ ℕ
  getattr : ℕ → Except ℕ Attrs
  readdir : ℕ → List Entry × Option ℕ
  strerror : ℕ → String
  calloc : ℕ → Bool
  realloc : ℕ → Bool

/-- The errors of `ext4b_check_tree` itself. -/
inductive Errno where
  | EIO
  | EFBIG
  | ENOMEM
  deriving DecidableEq, Repr

/-- `EXT4B_CHECK_MAX_INODES`. -/
def EXT4B_CHECK_MAX_INODES : ℕ := 64 * 1024 * 1024

/-! ## The work list and the set -/

/-- `inode_stack`, its top first. -/
structure InodeStack where
  items : List ℕ
  cap : ℕ

def stackPush (dev : Device) (s : InodeStack) (ino : ℕ) : Option InodeStack :=
  if s.items.length = s.cap then
    let cap := if s.cap = 0 then 256 else s.cap * 2
    if dev.realloc (cap * 4) then some ⟨ino :: s.items, cap⟩ else none
  else some { s with items := ino :: s.items }

/-- `inode_set`: one bit for each inode. -/
structure InodeSet where
  count : ℕ
  bits : Bytes.Buf ((count + 7) / 8)

def seen (s : InodeSet) (ino : ℕ) : Bool :=
  if ino = 0 ∨ s.count < ino then true     -- out of range: not ours to walk
  else Ext4.bit s.bits (ino - 1)

def mark (s : InodeSet) (ino : ℕ) : InodeSet :=
  if ino = 0 ∨ s.count < ino then s
  else { s with bits := Ext4.bmapBitSet s.bits (ino - 1) }

@[simp] theorem count_mark (s : InodeSet) (ino : ℕ) : (mark s ino).count = s.count := by
  unfold mark
  split_ifs <;> rfl

theorem seen_mark (s : InodeSet) (ino i : ℕ) :
    seen (mark s ino) i = (decide (i = ino) || seen s i) := by
  by_cases hino : ino = 0 ∨ s.count < ino
  · rw [mark, if_pos hino]
    by_cases hi : i = ino
    · subst hi
      rw [seen, if_pos hino, Bool.or_true]
    · rw [decide_eq_false hi, Bool.false_or]
  · have hin : ino - 1 < 8 * ((s.count + 7) / 8) := by omega
    rw [mark, if_neg hino]
    by_cases hi : i = 0 ∨ s.count < i
    · rw [seen, if_pos hi, seen, if_pos hi, Bool.or_true]
    · rw [seen, if_neg hi, seen, if_neg hi]
      refine (Ext4.bit_bmapBitSet hin (i - 1)).trans ?_
      congr 1
      exact decide_eq_decide.mpr (by omega)

/-! ## Problems -/

/-- `ext4b_check_result`. -/
structure Result where
  directories : ℕ
  files : ℕ
  problems : ℕ
  firstProblem : String

/-- The number the enumeration gives a type. -/
def typeNumber : Option ItemType → ℕ
  | none => 0
  | some .file => 1
  | some .dir => 2
  | some .symlink => 3
  | some .fifo => 4
  | some .chardev => 5
  | some .blockdev => 6
  | some .socket => 7

/-- A name as a message shows it, a character for each byte: 63 bytes at most, and up to a NUL. -/
def shown (name : Name) : String :=
  String.ofList (((name.take 63).takeWhile (· ≠ 0)).map fun b => Char.ofNat b.toNat)

def problem (out : Result) (text : String) : Result :=
  { out with
    problems := out.problems + 1
    firstProblem :=
      if out.firstProblem = "" then String.ofList (text.toList.take 255) else out.firstProblem }

@[simp] theorem problems_problem (out : Result) (text : String) :
    (problem out text).problems = out.problems + 1 := rfl

@[simp] theorem directories_problem (out : Result) (text : String) :
    (problem out text).directories = out.directories := rfl

@[simp] theorem files_problem (out : Result) (text : String) :
    (problem out text).files = out.files := rfl

/-- How the messages about an entry begin. -/
def inEntry (e : Entry) (dir : ℕ) : String :=
  "entry '" ++ shown e.name ++ "' in inode " ++ toString dir

/-! ## One entry -/

/-- `walk_ctx`, with what it points at. -/
structure WalkCtx where
  out : Result
  stack : InodeStack
  visited : InodeSet
  dirInode : ℕ
  subdirs : ℕ
  outOfMemory : Bool

/-- The entries that are the directory's own links. -/
def isDots (e : Entry) : Prop := e.name = dotName ∨ e.name = dotdotName

instance (e : Entry) : Decidable (isDots e) := inferInstanceAs (Decidable (_ ∨ _))

/-- The branch of `on_entry` for a directory. -/
def onSubdir (dev : Device) (w : WalkCtx) (inode : ℕ) : WalkCtx :=
  let w := { w with subdirs := w.subdirs + 1 }
  let w :=
    if seen w.visited inode then
      { w with
        out := problem w.out
          ("directory inode " ++ toString inode ++ " is reachable more than once") }
    else
      let visited := mark w.visited inode
      match stackPush dev w.stack inode with
      | some stack => { w with visited := visited, stack := stack }
      | none => { w with visited := visited, outOfMemory := true }
  { w with out := { w.out with directories := w.out.directories + 1 } }

def onEntry (dev : Device) (w : WalkCtx) (e : Entry) : WalkCtx :=
  if isDots e then w
  else if e.inode = 0 then
    { w with out := problem w.out (inEntry e w.dirInode ++ " points at inode 0") }
  else match dev.getattr e.inode with
    | .error r =>
        { w with
          out := problem w.out (inEntry e w.dirInode ++ " names inode " ++ toString e.inode
            ++ ", which cannot be read (" ++ dev.strerror r ++ ")") }
    | .ok a =>
        if a.linkCount = 0 then
          { w with
            out := problem w.out (inEntry e w.dirInode ++ " names inode " ++ toString e.inode
              ++ ", which has no links") }
        else
          let w :=
            if e.type ≠ none ∧ e.type ≠ a.type then
              { w with
                out := problem w.out (inEntry e w.dirInode ++ " says type "
                  ++ toString (typeNumber e.type) ++ ", inode " ++ toString e.inode ++ " says "
                  ++ toString (typeNumber a.type)) }
            else w
          if a.type = some .dir then onSubdir dev w e.inode
          else { w with out := { w.out with files := w.out.files + 1 } }

/-! ## The walk -/

/-- The walk between two directories. `taken` are the directories it took off the list so far. -/
structure Walk where
  out : Result
  stack : InodeStack
  visited : InodeSet
  taken : List ℕ

/-- The comparison of a directory's link count, in 32 bits. -/
def checkLinks (out : Result) (dir linkCount subdirs : ℕ) : Result :=
  let expected := (subdirs + 2) % 2 ^ 32
  if linkCount ≠ expected ∧ 1 < linkCount then
    problem out ("directory inode " ++ toString dir ++ " has link count " ++ toString linkCount
      ++ ", tree says " ++ toString expected)
  else out

/-- The body of the loop, once `dir` is off the list. -/
def checkDir (dev : Device) (s : Walk) (dir : ℕ) : Option Errno × Walk :=
  match dev.getattr dir with
  | .error r =>
      (none, { s with
        out := problem s.out ("directory inode " ++ toString dir ++ " cannot be read ("
          ++ dev.strerror r ++ ")") })
  | .ok da =>
      let w : WalkCtx := ⟨s.out, s.stack, s.visited, dir, 0, false⟩
      let w := (dev.readdir dir).1.foldl (onEntry dev) w
      let s : Walk := ⟨w.out, w.stack, w.visited, s.taken⟩
      match (dev.readdir dir).2 with
      | some r =>
          (none, { s with
            out := problem s.out ("directory inode " ++ toString dir
              ++ " cannot be read through (" ++ dev.strerror r ++ ")") })
      | none =>
          if w.outOfMemory then (some .ENOMEM, s)
          else (none, { s with out := checkLinks s.out dir da.linkCount w.subdirs })

/-- The loop; nothing when the fuel runs out. -/
def walkTree (dev : Device) : ℕ → Walk → Option (Option Errno × Walk)
  | 0, _ => none
  | fuel + 1, s =>
      match s.stack.items with
      | [] => some (none, s)
      | dir :: rest =>
          match checkDir dev
              { s with stack := { s.stack with items := rest }, taken := s.taken ++ [dir] } dir with
          | (some e, s) => some (some e, s)
          | (none, s) => walkTree dev fuel s

/-- What the check returns, what it reports, and the directories it took up. -/
structure Checked where
  rc : Option Errno
  out : Result
  taken : List ℕ

/-- The report the check starts from. -/
def blank : Result := ⟨0, 0, 0, ""⟩

/-- The walk once the root is on the list and counted. -/
def startWalk (total : ℕ) (stack : InodeStack) : Walk :=
  ⟨{ blank with directories := 1 }, stack, mark ⟨total, Bytes.zeros _⟩ rootIno, []⟩

/-- `ext4b_check_tree`, with fuel for its loop. -/
def checkTree (dev : Device) (fuel : ℕ) : Option Checked :=
  match dev.statfs with
  | .error _ => some ⟨some Errno.EIO, blank, []⟩
  | .ok total =>
      if total = 0 then some ⟨some Errno.EIO, blank, []⟩
      else if EXT4B_CHECK_MAX_INODES < total then some ⟨some .EFBIG, blank, []⟩
      else if dev.calloc ((total + 7) / 8) = false then some ⟨some .ENOMEM, blank, []⟩
      else match stackPush dev ⟨[], 0⟩ rootIno with
        | none => some ⟨some .ENOMEM, blank, []⟩
        | some stack =>
            (walkTree dev fuel (startWalk total stack)).map fun r => ⟨r.1, r.2.out, r.2.taken⟩

end Ext4b.Check

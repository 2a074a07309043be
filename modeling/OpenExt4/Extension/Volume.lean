import Mathlib.Data.Finset.Basic
import Mathlib.Data.Finset.Dedup
import OpenExt4.Bridge.Orphans

set_option autoImplicit false

/-! # Open files

The bookkeeping of `Ext4Volume` that decides when an inode without names is freed. Requests of FSKit
run concurrently: each is a task that comes to a stop wherever it waits for the executor, which
takes its jobs one at a time. Opening and closing count without the executor. -/

namespace Ext4Volume

open Ext4b

/-! ## The core -/

/-- `orphan_del`, transactions apart. -/
def orphanDel (v : Volume) (ino : ℕ) : Volume :=
  let head := v.lastOrphan
  if head = 0 ∨ ino = 0 then v
  else
    let after := orphanNext v ino
    let v := orphanSetNext v ino 0
    if head = ino then { v with lastOrphan := after }
    else closeOver v ino after ORPHAN_WALK_LIMIT head

/-- `ext4b_release_inode`, transactions apart. -/
def releaseInode (v : Volume) (now ino : ℕ) : Result Volume :=
  if ino < rootIno then .error (Errno.EINVAL, v)
  else
    let isHead := v.lastOrphan = ino
    let v := if isHead then v else orphanDel v ino
    if (v.inodes ino).linksCnt ≠ 0 then .error (Errno.EBUSY, v)
    else if (v.inodes ino).inUse = false then .ok v
    else do
      let next := orphanNext v ino
      let v ← freeInode v now ino
      return if isHead then { v with lastOrphan := next } else v

/-- What a failed call leaves: in a batch what it has done so far, else nothing. -/
def settle (v : Volume) (kept : Bool) : Result Volume → Volume
  | .ok w => w
  | .error (_, w) => if kept then w else v

/-! ## Requests -/

/-- A removal: the item's inode, the directory and the name. -/
structure Removal where
  item : ℕ
  directory : ℕ
  name : Name
  deriving DecidableEq

/-- A rename. -/
structure Move where
  sourceDirectory : ℕ
  sourceName : Name
  destinationDirectory : ℕ
  destinationName : Name
  deriving DecidableEq

/-- A request under way, by what it does next. -/
inductive Task where
  /-- `releaseIfPending` of `closeItem`, `deactivateItem` or `reclaimItem`. -/
  | releaseIfPending (ino : ℕ)
  /-- The job of `releaseIfPending`. -/
  | release (ino : ℕ)
  /-- The end of a `releaseIfPending` whose job failed. -/
  | putBack (ino : ℕ)
  /-- The job of `removeItem`. -/
  | remove (removal : Removal)
  /-- The end of a `removeItem` that took the last name of an open file. -/
  | notePendingRelease (ino : ℕ)
  /-- The job of `renameItem`. -/
  | rename (move : Move)
  /-- `releaseAllPending` of `unmount`. -/
  | releaseAllPending
  /-- The jobs of `releaseAllPending`, and the end of `unmount`. -/
  | drain (waiting : Finset ℕ)
  deriving DecidableEq

/-- `Ext4Volume`. `closed` is the device after `ext4b_unmount`; `executor` is a removal that has
    looked whether its file is open, and found it so or not. -/
structure Driver where
  core : Volume
  closed : Bool
  openCounts : ℕ → ℕ
  pendingRelease : Finset ℕ
  tasks : List Task
  executor : Option (Removal × Bool)

/-- What may happen next. -/
inductive Event where
  | openItem (ino : ℕ)
  | closeItem (ino : ℕ)
  /-- `deactivateItem` or `reclaimItem`. -/
  | deactivateItem (ino : ℕ)
  | removeItem (removal : Removal)
  | renameItem (move : Move)
  | unmount
  /-- A task goes on; `now` is the time, `kept` whether the changes of a call that fails stay. -/
  | releaseIfPending (ino : ℕ)
  | release (ino now : ℕ) (kept : Bool)
  | putBack (ino : ℕ)
  | remove (removal : Removal)
  /-- The job of a removal calls `ext4b_unlink_ex`, under the name as it is stored. -/
  | unlink (stored : Name) (env : Env) (kept : Bool)
  | notePendingRelease (ino : ℕ)
  | rename (move : Move) (storedSource storedDestination : Name) (env : Env) (kept : Bool)
  | releaseAllPending
  /-- One job of `releaseAllPending`. -/
  | drain (waiting : Finset ℕ) (ino now : ℕ) (kept : Bool)
  /-- `closeVolume`, when nothing waits any more. -/
  | closeVolume

/-! ## Steps -/

/-- A task goes on as others, or ends. -/
def Driver.goOn (s : Driver) (t : Task) (ts : List Task) : Driver :=
  { s with tasks := ts ++ s.tasks.erase t }

/-- `isOpen`. -/
def Driver.isOpen (s : Driver) (ino : ℕ) : Bool := 0 < s.openCounts ino

/-- The executor has nothing to do, and the volume is not closed. -/
def Driver.idle (s : Driver) : Bool := s.executor.isNone && !s.closed

/-- The calls of one item's inode on the core, from a job of the executor: whether it succeeded, and
    the core. A closed volume has no device. -/
def Driver.releaseJob (s : Driver) (ino now : ℕ) (kept : Bool) : Bool × Driver :=
  if s.closed then (false, s)
  else
    let r := releaseInode s.core now ino
    (r.toBool, { s with core := settle s.core kept r })

/-- The next state, if the event can happen. -/
def step (s : Driver) : Event → Option Driver
  | .openItem ino =>
      some { s with openCounts := Function.update s.openCounts ino (s.openCounts ino + 1) }
  | .closeItem ino =>
      let left := s.openCounts ino - 1
      let s := { s with openCounts := Function.update s.openCounts ino left }
      some (if 0 < left then s else { s with tasks := .releaseIfPending ino :: s.tasks })
  | .deactivateItem ino => some { s with tasks := .releaseIfPending ino :: s.tasks }
  | .removeItem removal => some { s with tasks := .remove removal :: s.tasks }
  | .renameItem move => some { s with tasks := .rename move :: s.tasks }
  | .unmount => some { s with tasks := .releaseAllPending :: s.tasks }
  | .releaseIfPending ino =>
      if .releaseIfPending ino ∉ s.tasks then none
      else if ino ∈ s.pendingRelease then
        some { s.goOn (.releaseIfPending ino) [.release ino] with
          pendingRelease := s.pendingRelease.erase ino }
      else some (s.goOn (.releaseIfPending ino) [])
  | .release ino now kept =>
      if .release ino ∉ s.tasks ∨ s.executor ≠ none then none
      else
        let (ok, s) := s.releaseJob ino now kept
        some (s.goOn (.release ino) (if ok then [] else [.putBack ino]))
  | .putBack ino =>
      if .putBack ino ∉ s.tasks then none
      else some { s.goOn (.putBack ino) [] with pendingRelease := insert ino s.pendingRelease }
  | .remove removal =>
      if .remove removal ∉ s.tasks ∨ s.executor ≠ none then none
      else if s.closed then some (s.goOn (.remove removal) [])
      else
        some { s.goOn (.remove removal) [] with
          executor := some (removal, s.isOpen removal.item) }
  | .unlink stored env kept =>
      match s.executor with
      | none => none
      | some (removal, deferRelease) =>
          let s := { s with executor := none }
          match unlinkEx s.core env removal.directory stored deferRelease with
          | .error e => some { s with core := settle s.core kept (.error e) }
          | .ok (orphaned, v) =>
              let s := { s with core := v }
              some (if orphaned then
                { s with tasks := .notePendingRelease removal.item :: s.tasks } else s)
  | .notePendingRelease ino =>
      if .notePendingRelease ino ∉ s.tasks then none
      else
        some { s.goOn (.notePendingRelease ino) [] with
          pendingRelease := insert ino s.pendingRelease }
  | .rename move storedSource storedDestination env kept =>
      if .rename move ∉ s.tasks ∨ s.executor ≠ none then none
      else if s.closed then some (s.goOn (.rename move) [])
      else
        some { s.goOn (.rename move) [] with
          core := settle s.core kept (Ext4b.rename s.core env move.sourceDirectory storedSource
            move.destinationDirectory storedDestination) }
  | .releaseAllPending =>
      if .releaseAllPending ∉ s.tasks then none
      else
        some { s.goOn .releaseAllPending [.drain s.pendingRelease] with pendingRelease := ∅ }
  | .drain waiting ino now kept =>
      if .drain waiting ∉ s.tasks ∨ ino ∉ waiting ∨ s.executor ≠ none then none
      else some ((s.releaseJob ino now kept).2.goOn (.drain waiting) [.drain (waiting.erase ino)])
  | .closeVolume =>
      if .drain ∅ ∉ s.tasks ∨ s.executor ≠ none then none
      else some { s.goOn (.drain ∅) [] with closed := true }

end Ext4Volume

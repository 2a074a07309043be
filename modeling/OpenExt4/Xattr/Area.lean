import OpenExt4.Lib.Bytes

set_option autoImplicit false

/-! # Attribute areas

An area of extended attributes (`ext4_xattr.c`), at the end of an inode or in a block of its own:
the check of an area that comes off the medium, and the walks and changes that follow it. The
entries grow up from the start of the area, their values down from its end. Memory is a buffer that
ends with the area; each access is made through a test of its bounds, which the code has not, so
that an access outside of the area is an error here. -/

namespace Ext4.Xattr

open Bytes

variable {n : ℕ}

/-! ## Entries -/

def EXT4_XATTR_MAGIC : ℕ := 0xEA020000

def EXT4_GOOD_OLD_INODE_SIZE : ℕ := 128

/-- `EXT4_XATTR_LEN`: an entry with a name of that length, in words of four bytes. -/
def xattrLen (nameLen : ℕ) : ℕ := (nameLen + 3 + 16) / 4 * 4

/-- `EXT4_XATTR_SIZE`: a value, in words of four bytes. -/
def xattrSize (size : ℕ) : ℕ := (size + 3) / 4 * 4

/-- `e_name_len`. -/
def nameLen (buf : Buf n) (p : ℕ) : ℕ := (get8 buf p).toNat

/-- `e_name_index`. -/
def nameIndex (buf : Buf n) (p : ℕ) : UInt8 := get8 buf (p + 1)

/-- `e_value_offs`. -/
def valueOffs (buf : Buf n) (p : ℕ) : ℕ := getLE 2 buf (p + 2)

/-- `e_value_size`. -/
def valueSize (buf : Buf n) (p : ℕ) : ℕ := getLE 4 buf (p + 8)

/-- `EXT4_XATTR_IS_LAST_ENTRY`. -/
def isLastEntry (buf : Buf n) (p : ℕ) : Prop := getLE 4 buf p = 0

instance (buf : Buf n) (p : ℕ) : Decidable (isLastEntry buf p) :=
  inferInstanceAs (Decidable (_ = _))

/-- `EXT4_XATTR_NEXT`. -/
def next (buf : Buf n) (p : ℕ) : ℕ := p + xattrLen (nameLen buf p)

/-- The bytes of a name (`EXT4_XATTR_NAME`). -/
def nameAt (buf : Buf n) (p : ℕ) : List UInt8 :=
  (List.range (nameLen buf p)).map fun i => get8 buf (p + 16 + i)

/-- The least offset of a value so far. -/
def lessOffs (buf : Buf n) (p m : ℕ) : ℕ :=
  if valueSize buf p ≠ 0 ∧ valueOffs buf p < m then valueOffs buf p else m

/-! ## The check -/

/-- The loop over the entries that both checks have; offsets count from `base`. It gives the end of
    the entries and the least offset of a value. -/
def walkValid (buf : Buf n) (base : ℕ) : ℕ → ℕ → ℕ → Option (ℕ × ℕ)
  | 0, _, _ => none
  | fuel + 1, p, m =>
      -- bounds before the dereference, not after
      if n < p + 4 then none
      else if isLastEntry buf p then some (p, m)
      else if n < p + 16 then none
      else if valueSize buf p = 0 ∧ valueOffs buf p ≠ 0 then none
      else if n < base + valueOffs buf p + valueSize buf p then none
      else if n < next buf p + 4 then none
      else walkValid buf base fuel (next buf p) (lessOffs buf p m)

/-- Entries and values do not overlap. -/
def fieldsApart (base : ℕ) : Option (ℕ × ℕ) → Bool
  | none => false
  | some (p, m) => decide (p + 4 ≤ base + m)

/-- `ext4_xattr_is_block_valid`. -/
def isBlockValid (buf : Buf n) : Bool :=
  decide (getLE 4 buf 0 = EXT4_XATTR_MAGIC) && decide (getLE 4 buf 8 = 1)
    && fieldsApart 0 (walkValid buf 0 n 32 n)

/-- `ext4_inode_get_extra_isize`; the buffer is the whole inode. -/
def extraIsize (inode : Buf n) : ℕ := if EXT4_GOOD_OLD_INODE_SIZE < n then getLE 2 inode 128 else 0

/-- `EXT4_XATTR_IHDR`. -/
def ihdr (inode : Buf n) : ℕ := EXT4_GOOD_OLD_INODE_SIZE + extraIsize inode

/-- `ext4_xattr_is_ibody_valid`. -/
def isIbodyValid (inode : Buf n) : Bool :=
  !decide (n < ihdr inode + 4 + 4 ∨ extraIsize inode % 4 ≠ 0)
    && decide (getLE 4 inode (ihdr inode) = EXT4_XATTR_MAGIC)
    && fieldsApart (ihdr inode)
      (walkValid inode (ihdr inode) n (ihdr inode + 4) (n - ihdr inode))

/-! ## Bounded access -/

/-- `struct ext4_xattr_search`: where the offsets of values count from and where the entries begin.
    The area itself begins at `start`, and ends where its buffer does. -/
structure Area where
  start : ℕ
  base : ℕ
  first : ℕ
  deriving DecidableEq

/-- `ext4_xattr_block_init_search`. -/
def blockArea : Area := ⟨0, 0, 32⟩

/-- The search of `ext4_xattr_ibody_find_entry`. -/
def ibodyArea (inode : Buf n) : Area := ⟨ihdr inode, ihdr inode + 4, ihdr inode + 4⟩

/-- What must not happen: an access outside of the area, a size below zero, a walk without end. -/
inductive Fault where
  | outside
  | wrapped
  | endless
  deriving DecidableEq, Repr

/-- An access to `len` bytes from `lo` on; none to no bytes. -/
def touch (n : ℕ) (a : Area) (lo len : ℕ) : Except Fault Unit :=
  if len = 0 ∨ a.start ≤ lo ∧ lo + len ≤ n then .ok () else .error .outside

/-- A difference of sizes. -/
def sub (x y : ℕ) : Except Fault ℕ := if x < y then .error .wrapped else .ok (x - y)

/-! ## Walks -/

/-- The entry has this name. -/
def isNamed (buf : Buf n) (index : UInt8) (name : List UInt8) (p : ℕ) : Prop :=
  (nameLen buf p = name.length ∧ nameIndex buf p = index) ∧ nameAt buf p = name

instance (buf : Buf n) (index : UInt8) (name : List UInt8) (p : ℕ) :
    Decidable (isNamed buf index name p) := inferInstanceAs (Decidable (_ ∧ _))

/-- The loop of `ext4_xattr_find_entry`. -/
def findFrom (a : Area) (buf : Buf n) (index : UInt8) (name : List UInt8) :
    ℕ → ℕ → Except Fault (Option ℕ)
  | 0, _ => .error .endless
  | fuel + 1, p => do
      touch n a p 4
      if isLastEntry buf p then .ok none
      else
        touch n a p 16
        if nameLen buf p = name.length ∧ nameIndex buf p = index then
          touch n a (p + 16) (nameLen buf p)
          if nameAt buf p = name then .ok (some p) else findFrom a buf index name fuel (next buf p)
        else findFrom a buf index name fuel (next buf p)

/-- `ext4_xattr_find_entry`. -/
def findEntry (a : Area) (buf : Buf n) (index : UInt8) (name : List UInt8) :
    Except Fault (Option ℕ) :=
  findFrom a buf index name n a.first

/-- The walk of `ext4_xattr_list`: the names with their indexes. -/
def listFrom (a : Area) (buf : Buf n) : ℕ → ℕ → Except Fault (List (UInt8 × List UInt8))
  | 0, _ => .error .endless
  | fuel + 1, p => do
      touch n a p 4
      if isLastEntry buf p then .ok []
      else
        touch n a p 16
        touch n a (p + 16) (nameLen buf p)
        let rest ← listFrom a buf fuel (next buf p)
        .ok ((nameIndex buf p, nameAt buf p) :: rest)

/-- The copy of `ext4_xattr_get` from the entry at `p` into a buffer of `bufLen` bytes. -/
def getValue (a : Area) (buf : Buf n) (p bufLen : ℕ) : Except Fault (List UInt8) := do
  let len := min bufLen (valueSize buf p)
  touch n a (a.base + valueOffs buf p) len
  .ok ((List.range len).map fun i => get8 buf (a.base + valueOffs buf p + i))

/-! ## Changes -/

/-- The first loop of `ext4_xattr_set_entry`: the end of the entries and the least offset. -/
def scanFrom (a : Area) (buf : Buf n) : ℕ → ℕ → ℕ → Except Fault (ℕ × ℕ)
  | 0, _, _ => .error .endless
  | fuel + 1, p, m => do
      touch n a p 4
      if isLastEntry buf p then .ok (p, m)
      else
        touch n a p 16
        scanFrom a buf fuel (next buf p) (lessOffs buf p m)

/-- The removal of a value of `vs` bytes at offset `vo`: what lies below it, from the least offset
    on, moves up. -/
def removeData (a : Area) (buf : Buf n) (m vo vs : ℕ) : Except Fault (Buf n × ℕ) :=
  if vo = 0 then .ok (buf, m)
  else do
    let len ← sub vo m
    touch n a (a.base + m) len
    touch n a (a.base + m + vs) len
    let buf := patch buf (a.base + m + vs) len fun i => get8 buf (a.base + m + i)
    -- zero the gap created
    touch n a (a.base + m) vs
    .ok (patch buf (a.base + m) vs fun _ => 0, m + vs)

/-- The loop that adjusts the offsets below `vo`; it gives the end of the entries again. -/
def adjustFrom (a : Area) (vo vs : ℕ) : ℕ → Buf n → ℕ → Except Fault (Buf n × ℕ)
  | 0, _, _ => .error .endless
  | fuel + 1, buf, p => do
      touch n a p 4
      if isLastEntry buf p then .ok (buf, p)
      else
        touch n a p 16
        let buf :=
          if valueOffs buf p < vo then putLE 2 buf (p + 2) (valueOffs buf p + vs) else buf
        adjustFrom a vo vs fuel buf (next buf p)

/-- Reuse the current entry. -/
def reuseEntry (a : Area) (buf : Buf n) (p vo len : ℕ) : Except Fault (Buf n) := do
  touch n a p 16
  .ok (putLE 4 (putLE 2 buf (p + 2) vo) (p + 8) len)

/-- A new entry at the end of the others, and the end behind it. The length of the name is cut to a
    byte. -/
def newEntry (a : Area) (buf : Buf n) (last : ℕ) (index : UInt8) (name : List UInt8)
    (vo len : ℕ) : Except Fault (Buf n) := do
  touch n a last 16
  let buf := patch buf last 1 fun _ => UInt8.ofNat name.length
  let buf := patch buf (last + 1) 1 fun _ => index
  let buf := putLE 4 (putLE 4 (putLE 2 buf (last + 2) vo) (last + 4) 0) (last + 8) len
  touch n a (last + 16) name.length
  let buf := patch buf (last + 16) name.length fun i => name.getD i 0
  touch n a (next buf last) 4
  .ok (putLE 4 buf (next buf last) 0)

/-- Insert the value's part. -/
def writeValue (a : Area) (buf : Buf n) (vo : ℕ) (v : List UInt8) : Except Fault (Buf n) :=
  if vo = 0 then .ok buf
  else do
    touch n a (a.base + vo) v.length
    let buf := patch buf (a.base + vo) v.length fun i => v.getD i 0
    -- clear the padding bytes if there is
    touch n a (a.base + vo + v.length) (xattrSize v.length - v.length)
    .ok (patch buf (a.base + vo + v.length) (xattrSize v.length - v.length) fun _ => 0)

/-- Remove the whole entry at `p`. -/
def dropEntry (a : Area) (buf : Buf n) (p last : ℕ) : Except Fault (Buf n) := do
  let shift := next buf p - p
  let len ← sub (last + 4) (next buf p)
  touch n a (next buf p) len
  touch n a p len
  let moved := patch buf p len fun i => get8 buf (next buf p + i)
  touch n a (last + 4 - shift) shift
  .ok (patch moved (last + 4 - shift) shift fun _ => 0)

inductive Status where
  | EOK
  | ENOSPC
  deriving DecidableEq, Repr

/-- What the entry that is replaced leaves. -/
def reusable (buf : Buf n) : Option ℕ → ℕ
  | none => 0
  | some p => xattrSize (valueSize buf p) + xattrLen (nameLen buf p)

/-- First remove the old entry's data part, and adjust the offsets. -/
def clearOld (a : Area) (buf : Buf n) (here : Option ℕ) (m last : ℕ) :
    Except Fault (Buf n × ℕ × ℕ) :=
  match here with
  | none => .ok (buf, m, last)
  | some p => do
      let vo := valueOffs buf p
      let vs := xattrSize (valueSize buf p)
      let (buf, m) ← removeData a buf m vo vs
      let (buf, last) ← adjustFrom a vo vs n buf a.first
      .ok (buf, m, last)

/-- If the caller wants us to insert. -/
def insertNew (a : Area) (buf : Buf n) (here : Option ℕ) (m last : ℕ) (index : UInt8)
    (name v : List UInt8) : Except Fault (Buf n) := do
  let vo ← if v.length ≠ 0 then sub m (xattrSize v.length) else .ok 0
  let buf ← match here with
    | some p => reuseEntry a buf p vo v.length
    | none => newEntry a buf last index name vo v.length
  writeValue a buf vo v

/-- `ext4_xattr_set_entry` on the entry that was found, if one was; no value is a removal. -/
def setEntry (a : Area) (buf : Buf n) (here : Option ℕ) (index : UInt8) (name : List UInt8)
    (value : Option (List UInt8)) (dryRun : Bool) : Except Fault (Status × Buf n) :=
  if value = none ∧ here = none then .ok (.EOK, buf)
  else do
    let (last, m) ← scanFrom a buf n a.first (n - a.base)
    let free ← sub (a.base + m) (last + 4)
    let free := free + reusable buf here
    if value.any fun v => free < xattrSize v.length + xattrLen name.length then
      .ok (.ENOSPC, buf)
    else if dryRun then .ok (.EOK, buf)
    else
      let (buf, m, last) ← clearOld a buf here m last
      match value, here with
      | some v, here =>
          let buf ← insertNew a buf here m last index name v
          .ok (.EOK, buf)
      | none, some p =>
          let buf ← dropEntry a buf p last
          .ok (.EOK, buf)
      | none, none => .ok (.EOK, buf)

end Ext4.Xattr

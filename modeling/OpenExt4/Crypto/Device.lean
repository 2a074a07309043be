import OpenExt4.Crypto.Xts

set_option autoImplicit false

/-! # The unlocked device

`luks_device_read` and `luks_device_write` make the payload of a container look like a plain device.
A request is widened to whole sectors; a write of part of a sector reads and decrypts it first. -/

namespace Luks

open Bytes ByteDevice SectorCipher

/-! ## The source -/

/-- `struct luks_device`, without its callbacks. -/
structure LuksDevice where
  key : XtsKey
  payloadOffset : ℕ
  sectorSize : ℕ
  /-- how many tweak units one encryption sector spans -/
  ivScale : ℕ
  /-- whether there is a `write_fn` -/
  writable : Bool
  sector_ok : sectorSize ≠ 0 ∧ sectorSize % 512 = 0
  iv_ok : ivScale = sectorSize / 512

def luksDeviceOpen (info : LuksInfo) (masterKey : List UInt8) (writable : Bool) :
    Option LuksDevice :=
  if h : info.sectorSize = 0 ∨ info.sectorSize % 512 ≠ 0 then none
  else
    match aesXtsKeyCreate masterKey with
    | none => none
    | some key =>
      some {
        key := key
        payloadOffset := info.payloadOffset
        sectorSize := info.sectorSize
        ivScale := info.sectorSize / 512
        writable := writable
        sector_ok := by omega
        iv_ok := rfl }

/-- Bytes available to the filesystem, given the size of the whole container. -/
def luksPayloadSize (d : LuksDevice) (containerSize : ℕ) : ℕ :=
  if containerSize ≤ d.payloadOffset then 0
  else
    let avail := containerSize - d.payloadOffset
    avail - avail % d.sectorSize

/-- How a request fares: the memory it is given, and which of the calls it makes fail. -/
structure DeviceCalls where
  /-- what `malloc` hands out -/
  heap : Option (ℕ → UInt8)
  read : Option Errno
  /-- the calls of the block cipher, by direction, sector and phase -/
  ecb : Bool → ℕ → Bool → Bool
  write : Landing Errno

/-- Write `len` bytes of `out` into the buffer at `off`. -/
abbrev overlay (buf : ℕ → UInt8) (off len : ℕ) (out : ℕ → UInt8) : ℕ → UInt8 :=
  put buf off len out fun _ => true

/-- Encrypt or decrypt one sector of a buffer in place. -/
def cryptAt (aes : Aes) (key : XtsKey) (ecb : ℕ → Bool → Bool) (encrypt : Bool) (sector : ℕ)
    (ivScale off len : ℕ) (buf : ℕ → UInt8) : Except Errno (ℕ → UInt8) :=
  let tweak := aesXtsPlain64Tweak (sector * ivScale % 2 ^ 64)
  match aesXtsCryptSector aes key (ecb sector) encrypt tweak (fun x => buf (off + x)) len with
  | .error e => .error e
  | .ok out => .ok (overlay buf off len out)

/-- Decrypt a run of sectors in place, numbering them from `firstSector`. -/
def decryptRun (aes : Aes) (key : XtsKey) (ecb : ℕ → Bool → Bool) (buf : ℕ → UInt8)
    (len sectorSize firstSector ivScale : ℕ) : Except Errno (ℕ → UInt8) :=
  sweep (fun off buf =>
    let chunk := if len - off < sectorSize then len - off else sectorSize
    cryptAt aes key ecb false (firstSector + off / sectorSize) ivScale off chunk buf)
    sectorSize (turns len sectorSize) 0 buf

/-- The first sector of a request, the bytes of the sectors it spans, and where it starts among
    them, in the 64-bit arithmetic of the source. -/
structure Window where
  first : ℕ
  span : ℕ
  shift : ℕ
  addr : ℕ

def LuksDevice.window (d : LuksDevice) (offset count : ℕ) : Window :=
  let ss := d.sectorSize
  let first := offset / ss
  let last := (offset + count - 1) % 2 ^ 64 / ss
  { first := first
    span := (last + 2 ^ 64 - first + 1) % 2 ^ 64 * ss % 2 ^ 64
    shift := offset - first * ss
    addr := (d.payloadOffset + first * ss) % 2 ^ 64 }

/-- The sectors of a window, read from the device and decrypted. -/
def readWindow (aes : Aes) (d : LuksDevice) (f : DeviceCalls) (dev : ℕ → UInt8) (w : Window) :
    Except Errno (ℕ → UInt8) :=
  match f.read with
  | some e => .error e
  | none =>
    decryptRun aes d.key (f.ecb false) (fun x => dev (w.addr + x)) w.span d.sectorSize w.first
      d.ivScale

def luksDeviceRead (aes : Aes) (d : LuksDevice) (f : DeviceCalls) (dev : ℕ → UInt8)
    (offset count : ℕ) : Except Errno (Buf count) :=
  if count = 0 then .ok fun _ => 0
  else
    let w := d.window offset count
    match f.heap with
    | none => .error .ENOMEM
    | some _ =>
      match readWindow aes d f dev w with
      | .error e => .error e
      | .ok window => .ok fun i => window (w.shift + i)

/-- The bytes that `luks_device_write` gives to `write_fn`. -/
def writeWindow (aes : Aes) (d : LuksDevice) (f : DeviceCalls) (dev : ℕ → UInt8) (w : Window)
    (count : ℕ) (data : ℕ → UInt8) (heap : ℕ → UInt8) : Except Errno (ℕ → UInt8) :=
  -- a partial sector has to be read and decrypted first
  match if w.shift ≠ 0 ∨ count ≠ w.span then readWindow aes d f dev w else .ok heap with
  | .error e => .error e
  | .ok window =>
    sweep (fun off buf =>
      cryptAt aes d.key (f.ecb true) true (w.first + off / d.sectorSize) d.ivScale off
        d.sectorSize buf)
      d.sectorSize (turns w.span d.sectorSize) 0 (overlay window w.shift count data)

/-- `luks_device_write` up to its call of `write_fn`: the window and the bytes that it is called
    with, if it is called. -/
def writeCommand (aes : Aes) (d : LuksDevice) (f : DeviceCalls) (dev : ℕ → UInt8)
    (offset count : ℕ) (data : ℕ → UInt8) : Except Errno (Option (Window × (ℕ → UInt8))) :=
  if d.writable = false then .error .EROFS
  else if count = 0 then .ok none
  else
    let w := d.window offset count
    match f.heap with
    | none => .error .ENOMEM
    | some heap =>
      match writeWindow aes d f dev w count data heap with
      | .error e => .error e
      | .ok window => .ok (some (w, window))

def luksDeviceWrite (aes : Aes) (d : LuksDevice) (f : DeviceCalls) (dev : ℕ → UInt8)
    (offset count : ℕ) (data : ℕ → UInt8) : Option Errno × (ℕ → UInt8) :=
  match writeCommand aes d f dev offset count data with
  | .error e => (some e, dev)
  | .ok none => (none, dev)
  | .ok (some (w, window)) => writeAt dev f.write w.addr w.span window

end Luks

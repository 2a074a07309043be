import OpenExt4.Crypto.Device
import OpenExt4.Crypto.Probe

set_option autoImplicit false

/-! # Unlocking a container

`luks_unlock` tries the key slots of a container one after the other. A slot stretches the
passphrase into a key for its own area, decrypts the split master key there and merges it; what
comes out is the master key if it matches a digest of the container. -/

namespace Luks

open Bytes

/-! ## What the unlock calls -/

/-- The platform under the unlock: hashes and memory, AES, and the two kinds of KDF. -/
structure Platform where
  machine : Machine
  aes : Aes
  /-- `ext4b_pbkdf2`: hash, password, salt, iterations and output length -/
  pbkdf2 : CryptoHash → List UInt8 → List UInt8 → ℕ → (n : ℕ) → Option (Buf n)
  /-- `argon2_hash`: whether it is argon2id, time, memory, lanes, password, salt, output length -/
  argon2 : Bool → ℕ → ℕ → ℕ → List UInt8 → List UInt8 → (n : ℕ) → Option (Buf n)

/-- How the calls made for one slot fare: its memory, its cryptors, each call of the block cipher,
    and the merge. -/
structure SlotCalls where
  material : Bool
  derived : Bool
  cryptors : Bool
  ecb : ℕ → Bool → Bool
  merge : Bool

/-- `LUKS_MAX_PBKDF2_ITER`. -/
def luksMaxPbkdf2Iter : ℕ := 100000000

def cryptoPbkdf2 (p : Platform) (h : Option CryptoHash) (password salt : List UInt8)
    (iterations outLen : ℕ) : Option (List UInt8) :=
  match h with
  | none => none
  | some h =>
    if outLen = 0 ∨ iterations = 0 then none
    else (p.pbkdf2 h password salt iterations outLen).map toList

/-! ## Merging the stripes -/

/-- The bytes of a 32-bit counter, big-endian. -/
def counterBytes (i : ℕ) : List UInt8 := toList (putBE 4 (zeros 4) 0 i)

/-- `diffuse`: hash the buffer in digest-sized chunks, each prefixed with its own index; `n` chunks
    are left, the next one is number `i`. -/
def diffuse (mc : Machine) (hash : CryptoHash) : ℕ → ℕ → List UInt8 → List UInt8
  | 0, _, _ => []
  | n + 1, i, src =>
    let chunk := src.take hash.size
    (toList (mc.sha hash (counterBytes i ++ chunk))).take chunk.length
      ++ diffuse mc hash n (i + 1) (src.drop hash.size)

/-- XOR of two buffers. -/
def xorBytes (a b : List UInt8) : List UInt8 := List.zipWith (· ^^^ ·) a b

/-- The loop of `af_merge` over every stripe but the last; `n` of them are left, and `src` starts
    with the next one. -/
def mergeStripes (mc : Machine) (hash : CryptoHash) (keyLen : ℕ) :
    ℕ → List UInt8 → List UInt8 → List UInt8 × List UInt8
  | 0, acc, src => (acc, src)
  | n + 1, acc, src =>
    let acc := xorBytes acc (src.take keyLen)
    mergeStripes mc hash keyLen n (diffuse mc hash (SectorCipher.turns keyLen hash.size) 0 acc)
      (src.drop keyLen)

/-- `af_merge`, when its memory is there. -/
def afMerge (mc : Machine) (src : List UInt8) (keyLen stripes : ℕ) (hash : CryptoHash) :
    List UInt8 :=
  let r := mergeStripes mc hash keyLen (stripes - 1) (List.replicate keyLen 0) src
  -- the last stripe is XORed in without diffusion
  xorBytes r.1 (r.2.take keyLen)

/-- The area of a slot: read, decrypted with the slot's key in sectors of 512 bytes numbered from
    its own start, and merged. -/
def openArea (p : Platform) (c : SlotCalls) (m : Medium) (slotKey : List UInt8)
    (offset keyLen stripes : ℕ) (hash : CryptoHash) : Except LuksStatus (List UInt8) :=
  match m.read offset (stripes * keyLen) with
  | none => .error .unreadable
  | some material =>
    match if c.cryptors then aesXtsKeyCreate slotKey else none with
    | none => .error .unsupported
    | some xts =>
      match decryptRun p.aes xts c.ecb (get8 material) (stripes * keyLen) l1Sector 0 1 with
      | .error _ => .error .unreadable
      | .ok material =>
        if c.merge then
          .ok (afMerge p.machine ((List.range (stripes * keyLen)).map material) keyLen stripes hash)
        else .error .unreadable

/-! ## LUKS1 -/

def l1MkDigest : ℕ := 112

def l1MkDigestSalt : ℕ := 132

def l1MkDigestIter : ℕ := 164

def l1KeySlots : ℕ := 208

def l1DigestLen : ℕ := 20

def l1SaltLen : ℕ := 32

def l1NumSlots : ℕ := 8

def l1SlotSize : ℕ := 48

def l1SlotEnabled : ℕ := 0x00AC71F3

structure Luks1Slot where
  active : ℕ
  iterations : ℕ
  salt : List UInt8
  /-- in 512-byte sectors -/
  keyMaterialOffset : ℕ
  stripes : ℕ

def readSlot (hdr : Buf l1HeaderLen) (i : ℕ) : Luks1Slot :=
  let p := l1KeySlots + i * l1SlotSize
  { active := getBE 4 hdr p
    iterations := getBE 4 hdr (p + 4)
    salt := toList (slice hdr (p + 8) l1SaltLen)
    keyMaterialOffset := getBE 4 hdr (p + 40)
    stripes := getBE 4 hdr (p + 44) }

/-- Does this candidate master key match the digest in the header? -/
def digestMatches (p : Platform) (hdr : Buf l1HeaderLen) (hash : CryptoHash) (mk : List UInt8) :
    Bool :=
  let want := toList (slice hdr l1MkDigest l1DigestLen)
  let iter := getBE 4 hdr l1MkDigestIter
  if iter = 0 ∨ luksMaxPbkdf2Iter < iter then false
  else
    match cryptoPbkdf2 p (some hash) mk (toList (slice hdr l1MkDigestSalt l1SaltLen)) iter
        l1DigestLen with
    | none => false
    | some got => want = got

/-- The key that a slot yields: `try_slot` up to the digest. -/
def slotKey (p : Platform) (c : SlotCalls) (m : Medium) (info : LuksInfo) (slot : Luks1Slot)
    (hash : CryptoHash) (passphrase : List UInt8) : Except LuksStatus (List UInt8) :=
  if slot.stripes = 0 ∨ 8192 < slot.stripes then .error .corrupt
  else if slot.iterations = 0 ∨ luksMaxPbkdf2Iter < slot.iterations then .error .corrupt
  else if c.material = false then .error .unreadable
  else if c.derived = false then .error .unreadable
  else
    match cryptoPbkdf2 p (some hash) passphrase slot.salt slot.iterations info.keyBytes with
    | none => .error .unreadable
    | some derived =>
      openArea p c m derived (slot.keyMaterialOffset * l1Sector) info.keyBytes slot.stripes hash

def trySlot (p : Platform) (c : SlotCalls) (m : Medium) (hdr : Buf l1HeaderLen) (info : LuksInfo)
    (slot : Luks1Slot) (hash : CryptoHash) (passphrase : List UInt8) :
    Except LuksStatus (List UInt8) :=
  match slotKey p c m info slot hash passphrase with
  | .error s => .error s
  | .ok mk => if digestMatches p hdr hash mk then .ok mk else .error .badPassphrase

/-! ## LUKS2 -/

/-- Stretch the passphrase into the key that protects one key slot's area. -/
def deriveSlotKey (p : Platform) (js : List UInt8) (toks : List JsonTok) (kdf : Option ℕ)
    (pass : List UInt8) (outLen : ℕ) : Except Errno (List UInt8) :=
  match jsonCopy js toks (memberOf js toks kdf "type") 32,
      jsonCopy js toks (memberOf js toks kdf "salt") 512 with
  | some type, some saltB64 =>
    match base64Decode saltB64 256 with
    | none => .error .EINVAL
    | some [] => .error .EINVAL
    | some salt =>
      if type = ascii "pbkdf2" then
        match jsonCopy js toks (memberOf js toks kdf "hash") 32,
            jsonGetU64 js toks (memberOf js toks kdf "iterations") with
        | some hname, some iterations =>
          if iterations = 0 ∨ luksMaxPbkdf2Iter < iterations then .error .EINVAL
          else
            match cryptoPbkdf2 p (cryptoHashByName hname) pass salt iterations outLen with
            | none => .error Errno.EIO
            | some key => .ok key
        | _, _ => .error .EINVAL
      else if type = ascii "argon2i" ∨ type = ascii "argon2id" then
        let time := (jsonGetU64 js toks (memberOf js toks kdf "time")).getD 0
        let memory := (jsonGetU64 js toks (memberOf js toks kdf "memory")).getD 0
        let cpus := (jsonGetU64 js toks (memberOf js toks kdf "cpus")).getD 1
        if time = 0 ∨ 1024 < time ∨ memory < 8 ∨ 2 ^ 22 < memory ∨ cpus = 0 ∨ 64 < cpus then
          .error .EINVAL
        -- individually bounded is not enough
        else if 2 ^ 27 < time * memory then .error .EINVAL
        else
          match p.argon2 (type = ascii "argon2id") time memory cpus pass salt outLen with
          | none => .error Errno.EIO
          | some key => .ok (toList key)
      else .error .ENOTSUP
  | _, _ => .error .EINVAL

/-- The loop over a digest's list of ids, from element `e` on. -/
def listsFrom (js : List UInt8) (toks : List JsonTok) (ids : Option ℕ) (id : List UInt8) :
    ℕ → ℕ → Bool
  | 0, _ => false
  | fuel + 1, e =>
    match jsonArrayGet toks ids e with
    | none => false
    | some el =>
      if jsonEquals js toks (some el) id then true else listsFrom js toks ids id fuel (e + 1)

/-- Does the digest at `d` list the id under the key? A list has no more elements than tokens. -/
def digestLists (js : List UInt8) (toks : List JsonTok) (d : Option ℕ) (key : String)
    (id : List UInt8) : Bool :=
  listsFrom js toks (memberOf js toks d key) id (toks.length + 1) 0

/-- Does the candidate master key satisfy the digest at `d`? -/
def digestSatisfied (p : Platform) (js : List UInt8) (toks : List JsonTok) (d : Option ℕ)
    (mk : List UInt8) : Bool :=
  if jsonCopy js toks (memberOf js toks d "type") 32 ≠ some (ascii "pbkdf2") then false
  else
    match jsonCopy js toks (memberOf js toks d "hash") 32,
        jsonCopy js toks (memberOf js toks d "salt") 512,
        jsonCopy js toks (memberOf js toks d "digest") 512,
        jsonGetU64 js toks (memberOf js toks d "iterations") with
    | some hname, some saltB64, some digB64, some iterations =>
      if iterations = 0 ∨ luksMaxPbkdf2Iter < iterations then false
      else
        match base64Decode saltB64 256, base64Decode digB64 128 with
        | some salt, some want =>
          if salt = [] ∨ want = [] then false
          else
            match cryptoPbkdf2 p (cryptoHashByName hname) mk salt iterations want.length with
            | none => false
            | some got => want = got
        | _, _ => false
    | _, _, _, _ => false

/-- The `i`-th digest of the container. -/
def digestAt (toks : List JsonTok) (digests : Option ℕ) (i : ℕ) : Option ℕ :=
  some (jsonSkip toks (jsonObjectKeyAt toks digests i))

/-- Does this candidate master key satisfy a digest that covers the slot? -/
def luks2DigestOk (p : Platform) (js : List UInt8) (toks : List JsonTok) (digests : Option ℕ)
    (slotId mk : List UInt8) : Bool :=
  (List.range (jsonObjectCount toks digests)).any fun i =>
    let d := digestAt toks digests i
    digestLists js toks d "keyslots" slotId && digestSatisfied p js toks d mk

/-- The key that a LUKS2 slot yields: `try_luks2_slot` up to the digest. -/
def luks2SlotKey (p : Platform) (c : SlotCalls) (m : Medium) (js : List UInt8)
    (toks : List JsonTok) (ks : Option ℕ) (pass : List UInt8) :
    Except LuksStatus (List UInt8) :=
  let get obj (key : String) := memberOf js toks obj key
  -- a slot we do not handle is not an error
  if jsonCopy js toks (get ks "type") 32 ≠ some (ascii "luks2") then .error .badPassphrase
  else
    match jsonGetU64 js toks (get ks "key_size") with
    | none => .error .corrupt
    | some keySize =>
      if keySize = 0 ∨ luksMaxMasterKey < keySize then .error .corrupt
      else
        let af := get ks "af"
        match jsonGetU64 js toks (get af "stripes"), jsonCopy js toks (get af "hash") 32 with
        | some stripes, some afHash =>
          if stripes = 0 ∨ 8192 < stripes then .error .corrupt
          else
            let area := get ks "area"
            match jsonGetU64 js toks (get area "offset"), jsonGetU64 js toks (get area "size"),
                jsonCopy js toks (get area "encryption") 64 with
            | some areaOff, some areaSize, some areaEnc =>
              let areaKeySize := (jsonGetU64 js toks (get area "key_size")).getD keySize
              if areaEnc ≠ ascii "aes-xts-plain64" then .error .unsupported
              else if areaKeySize ≠ 32 ∧ areaKeySize ≠ 64 then .error .unsupported
              else if areaSize < stripes * keySize then .error .corrupt
              else
                match cryptoHashByName afHash with
                | none => .error .unsupported
                | some hash =>
                  if c.material = false then .error .unreadable
                  else if c.derived = false then .error .unreadable
                  else
                    match deriveSlotKey p js toks (get ks "kdf") pass areaKeySize with
                    | .error _ => .error .unsupported
                    | .ok derived => openArea p c m derived areaOff keySize stripes hash
            | _, _, _ => .error .corrupt
        | _, _ => .error .corrupt

def tryLuks2Slot (p : Platform) (c : SlotCalls) (m : Medium) (js : List UInt8)
    (toks : List JsonTok) (ks : Option ℕ) (slotId : List UInt8) (digests : Option ℕ)
    (pass : List UInt8) : Except LuksStatus (List UInt8) :=
  match luks2SlotKey p c m js toks ks pass with
  | .error s => .error s
  | .ok mk => if luks2DigestOk p js toks digests slotId mk then .ok mk else .error .badPassphrase

/-! ## The loops over the slots -/

/-- Try slot after slot until one gives a key; `none` is a slot that is passed over. What failed
    otherwise than by the passphrase is reported at the end. -/
def trySlots (attempt : ℕ → Option (Except LuksStatus (List UInt8))) :
    List ℕ → LuksStatus → Except LuksStatus (List UInt8)
  | [], last => .error last
  | i :: rest, last =>
    match attempt i with
    | none => trySlots attempt rest last
    | some (.ok mk) => .ok mk
    | some (.error s) => trySlots attempt rest (if s ≠ .badPassphrase then s else last)

/-- The slot of `unlock_luks2`'s turn `i`. -/
def luks2Attempt (p : Platform) (calls : ℕ → SlotCalls) (m : Medium) (js : List UInt8)
    (toks : List JsonTok) (pass : List UInt8) (i : ℕ) : Option (Except LuksStatus (List UInt8)) :=
  let keyslots := memberOf js toks (some 0) "keyslots"
  let digests := memberOf js toks (some 0) "digests"
  let key := jsonObjectKeyAt toks keyslots i
  match jsonCopy js toks key 24 with
  | none => none
  | some slotId =>
    some (tryLuks2Slot p (calls i) m js toks (some (jsonSkip toks key)) slotId digests pass)

def unlockLuks2 (p : Platform) (calls : ℕ → SlotCalls) (m : Medium) (pass : List UInt8) :
    Except LuksStatus (List UInt8) :=
  match luks2Load p.machine m with
  | none => .error .corrupt
  | some hdr =>
    if p.machine.calloc = false then .error .unreadable
    else
      match jsonParse hdr.json l2MaxTokens with
      | .ok (t :: toks) =>
        let toks := t :: toks
        let keyslots := memberOf hdr.json toks (some 0) "keyslots"
        if keyslots = none ∨ memberOf hdr.json toks (some 0) "digests" = none then .error .corrupt
        else
          trySlots (luks2Attempt p calls m hdr.json toks pass)
            (List.range (jsonObjectCount toks keyslots)) .badPassphrase
      | _ => .error .corrupt

/-- The slot of `luks_unlock`'s turn `i`; a disabled slot is skipped rather than attempted. -/
def luks1Attempt (p : Platform) (calls : ℕ → SlotCalls) (m : Medium) (hdr : Buf l1HeaderLen)
    (info : LuksInfo) (hash : CryptoHash) (passphrase : List UInt8) (i : ℕ) :
    Option (Except LuksStatus (List UInt8)) :=
  let slot := readSlot hdr i
  if slot.active ≠ l1SlotEnabled then none
  else some (trySlot p (calls i) m hdr info slot hash passphrase)

def luksUnlock (p : Platform) (calls : ℕ → SlotCalls) (m : Medium) (info : LuksInfo)
    (passphrase : List UInt8) : Except LuksStatus (List UInt8) :=
  if info.version = 2 then unlockLuks2 p calls m passphrase
  else if info.version ≠ 1 then .error .unsupported
  else
    match cryptoHashByName info.hash with
    | none => .error .unsupported
    | some hash =>
      match m.read 0 l1HeaderLen with
      | none => .error .unreadable
      | some hdr =>
        if slice hdr 0 6 ≠ luksMagic then .error .notLuks
        else
          -- any slot may hold the passphrase, so all of them are tried
          trySlots (luks1Attempt p calls m hdr info hash passphrase) (List.range l1NumSlots)
            .badPassphrase

end Luks

import OpenExt4.Lib.Bytes

set_option autoImplicit false

/-! # What the crypto layer stands on

The medium that a container lies on, the hash functions by their names, and the strings of a
header. SHA itself and the memory allocator are the platform's; they come in as a `Machine`. -/

namespace Luks

open Bytes

/-- What the functions of the layer return when they fail; `code` is what a callback returned. -/
inductive Errno where
  | EINVAL
  | ENOMEM
  | EROFS
  | EIO
  | ENOTSUP
  | ENOSPC
  | E2BIG
  | code (r : ℕ)
  deriving DecidableEq, Repr

/-! ## Strings -/

/-- The characters of a C string literal. -/
def ascii (s : String) : List UInt8 := s.toList.map fun c => UInt8.ofNat c.toNat

/-- The characters of a field up to its terminating NUL. -/
def cString (field : List UInt8) : List UInt8 := field.takeWhile (· ≠ 0)

/-- What a container advertises about itself, filled in by `luks_probe`. -/
structure LuksInfo where
  version : ℕ
  cipher : List UInt8
  mode : List UInt8
  hash : List UInt8
  /-- bytes from the start -/
  payloadOffset : ℕ
  /-- master key length -/
  keyBytes : ℕ
  /-- encryption sector -/
  sectorSize : ℕ
  uuid : List UInt8
  /-- why, when it is not usable -/
  unsupported : List UInt8

/-! ## Hash functions -/

inductive CryptoHash where
  | sha1
  | sha256
  | sha512
  deriving DecidableEq, Repr

/-- `crypto_hash_size`. -/
def CryptoHash.size : CryptoHash → ℕ
  | .sha1 => 20
  | .sha256 => 32
  | .sha512 => 64

/-- `crypto_hash_by_name`; `none` is `CRYPTO_HASH_NONE`. -/
def cryptoHashByName (name : List UInt8) : Option CryptoHash :=
  if name = ascii "sha1" then some .sha1
  else if name = ascii "sha256" then some .sha256
  else if name = ascii "sha512" then some .sha512
  else none

theorem CryptoHash.size_le (a : CryptoHash) : a.size ≤ 64 := by
  cases a <;> decide

theorem CryptoHash.size_pos (a : CryptoHash) : 0 < a.size := by
  cases a <;> decide

/-! ## The medium -/

/-- A medium: its bytes, and which reads of it fail. -/
structure Medium where
  bytes : ℕ → UInt8
  fails : ℕ → ℕ → Bool

/-- The `n` bytes from `off` on. -/
def Medium.window (m : Medium) (off n : ℕ) : Buf n := fun i => m.bytes (off + i)

/-- `read_fn`: the `n` bytes from `off` on, unless the read fails. -/
def Medium.read (m : Medium) (off n : ℕ) : Option (Buf n) :=
  if m.fails off n then none else some (m.window off n)

theorem Medium.read_eq_some {m : Medium} {off n : ℕ} {b : Buf n} :
    m.read off n = some b ↔ m.fails off n = false ∧ m.window off n = b := by
  unfold Medium.read
  cases m.fails off n <;> simp

/-- Two media with the same bytes in a stretch have the same window on it. -/
theorem Medium.window_congr {m m' : Medium} {off n : ℕ}
    (h : ∀ x, off ≤ x → x < off + n → m.bytes x = m'.bytes x) :
    m.window off n = m'.window off n := by
  funext i
  exact h _ (Nat.le_add_right _ _) (by have := i.isLt; omega)

end Luks
